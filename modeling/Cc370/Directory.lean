import Cc370.Unload
import Cc370.Lib.Reads

namespace Cc370

open Slices Reads

section Fields

variable {b : Buffer} {p : ℕ}

theorem mvsBe16_at {v : ℤ} (h : At b p (mvsPut16 v)) : (mvsBe16 b p : ℤ) = v % 65536 := by
  have h0 : b p = .ofInt (v / 256) := h 0 (by simp)
  have h1 : b (p + 1) = .ofInt v := h 1 (by simp)
  have hv0 := BigEndian.toNat_ofInt (v / 256)
  have hv1 := BigEndian.toNat_ofInt v
  rw [mvsBe16, h0, h1]
  omega

theorem mvsBe16_at_nat {v : ℕ} (h : At b p (mvsPut16 v)) (hv : v < 65536) : mvsBe16 b p = v := by
  have hb := mvsBe16_at h
  omega

theorem mvsBe24_at {v : ℤ} (h : At b p (mvsPut24 v)) : (mvsBe24 b p : ℤ) = v % 16777216 := by
  have h0 : b p = .ofInt (v / 65536) := h 0 (by simp)
  have h1 : b (p + 1) = .ofInt (v / 256) := h 1 (by simp)
  have h2 : b (p + 2) = .ofInt v := h 2 (by simp)
  have hv0 := BigEndian.toNat_ofInt (v / 65536)
  have hv1 := BigEndian.toNat_ofInt (v / 256)
  have hv2 := BigEndian.toNat_ofInt v
  rw [mvsBe24, h0, h1, h2]
  omega

theorem nameAt_at {n : Name} (h : At b p n.toList) : nameAt b p = n := by
  apply Vector.ext
  intro i hi
  have hget := h i (by simpa using hi)
  simpa [nameAt] using hget

end Fields

/-- The length of a directory entry, by the halfwords of user data that it says it has. -/
def entryLen (b : Buffer) (e : ℕ) : ℕ := 12 + (b (e + 11)).toNat % 32 * 2

/-- The entries of a directory block, up to one that ends the directory. -/
def entryWalk (stop : ℕ → Bool) (b : Buffer) (dir used : ℕ) : ℕ → ℕ → List ℕ × Bool
  | 0, _ => ([], false)
  | fuel + 1, q =>
    if q + 12 ≤ used then
      if stop (dir + q) then ([], true)
      else
        let r := entryWalk stop b dir used fuel (q + entryLen b (dir + q))
        ((dir + q) :: r.1, r.2)
    else ([], false)

/-- Where each of several pieces begins. -/
def starts : ℕ → List (List UInt8) → List ℕ
  | _, [] => []
  | p, e :: es => p :: starts (p + e.length) es

theorem starts_append (p : ℕ) (es fs : List (List UInt8)) : starts p (es ++ fs) = starts p es ++ starts (p + es.flatten.length) fs := by
  induction es generalizing p with
  | nil => rfl
  | cons e es ih =>
    rw [List.cons_append, starts, starts, ih, List.flatten_cons, List.length_append, add_assoc]
    rfl

theorem at_starts {b : Buffer} {p : ℕ} {es : List (List UInt8)} (h : At b p es.flatten) :
    List.Forall₂ (At b) (starts p es) es := by
  induction es generalizing p with
  | nil => exact .nil
  | cons e es ih =>
    rw [List.flatten_cons] at h
    exact .cons h.left (ih h.right)

/-- The entry has the user data it says it has. -/
def IsEntry (e : List UInt8) : Prop := e.length = 12 + (e.getD 11 0).toNat % 32 * 2

theorem IsEntry.entryLen {e : List UInt8} (h : IsEntry e) {b : Buffer} {p : ℕ} (hat : At b p e) : entryLen b p = e.length := by
  have h12 : 11 < e.length := by
    rw [h]
    omega
  rw [Cc370.entryLen, hat 11 h12, h, List.getD_eq_getElem _ _ h12]

theorem entryWalk_entries {stop : ℕ → Bool} {b : Buffer} {dir used : ℕ} {es : List (List UInt8)} (hes : ∀ e ∈ es, IsEntry e)
    (hstop : ∀ p, ∀ e ∈ es, At b p e → stop p = false) (q fuel : ℕ) (hat : At b (dir + q) es.flatten) (last : Bool)
    (hused : used = q + es.flatten.length + if last then 12 else 0)
    (hlast : last = true → stop (dir + q + es.flatten.length) = true) (hfuel : es.length < fuel) :
    entryWalk stop b dir used fuel q = (starts (dir + q) es, last) := by
  induction es generalizing q fuel with
  | nil =>
    obtain ⟨f, rfl⟩ := Nat.exists_eq_add_one_of_ne_zero (Nat.ne_of_gt (Nat.zero_lt_of_lt hfuel))
    rw [entryWalk]
    cases last with
    | false => simp [hused, starts]
    | true =>
      have hs : stop (dir + q) = true := hlast rfl
      simp [hused, hs, starts]
  | cons e es ih =>
    obtain ⟨f, rfl⟩ := Nat.exists_eq_add_one_of_ne_zero (Nat.ne_of_gt (Nat.zero_lt_of_lt hfuel))
    rw [List.flatten_cons] at hat
    have he := hes e List.mem_cons_self
    have hlen := he.entryLen hat.left
    have h12 : 12 ≤ e.length := by
      rw [he]
      omega
    have hsum : (e :: es).flatten.length = e.length + es.flatten.length := by rw [List.flatten_cons, List.length_append]
    rw [hsum] at hused hlast
    have hrest := ih (fun x hx => hes x (List.mem_cons_of_mem _ hx)) (fun p x hx => hstop p x (List.mem_cons_of_mem _ hx))
      (q + e.length) f (by rw [← add_assoc]; exact hat.right) (by omega) (by rwa [← add_assoc, add_assoc (dir + q)])
      (by simpa using hfuel)
    rw [entryWalk, if_pos (by omega), hstop (dir + q) e List.mem_cons_self hat.left, hlen]
    simp only [Bool.false_eq_true, if_false, hrest, starts, add_assoc]

/-- A directory block as a record: the count, the key, and the bytes of the entries. -/
def dirRecord (key : List UInt8) (last : Bool) (es : List (List UInt8)) : List UInt8 :=
  mvsPutCount 0 0 0 8 256 ++ key ++ (mvsPut16 (2 + es.flatten.length + (if last then 12 else 0) : ℕ) ++ es.flatten ++
    (if last then List.replicate 8 0xFF else []) ++ List.replicate (256 - (2 + es.flatten.length + if last then 8 else 0)) 0x00)

/-- The block at an offset has the entries. -/
structure DirAt (b : Buffer) (p : ℕ) (last : Bool) (es : List (List UInt8)) : Prop where
  kl : b (p + 9) = 8
  dl : mvsBe16 b (p + 10) = 256
  used : mvsBe16 b (p + 20) = 2 + es.flatten.length + if last then 12 else 0
  entries : At b (p + 22) es.flatten
  ends : last = true → At b (p + 22 + es.flatten.length) (List.replicate 8 0xFF)

@[simp] theorem mvsPutCount_length (cc hh r kl dl : ℕ) : (mvsPutCount cc hh r kl dl).length = 12 := rfl

section Record

variable {key : List UInt8} {last : Bool} {es : List (List UInt8)} (hkey : key.length = 8)
  (hroom : 2 + es.flatten.length + (if last then 12 else 0) ≤ 256)

include hkey hroom

theorem dirRecord_length : (dirRecord key last es).length = 276 := by
  simp only [dirRecord, List.length_append, mvsPutCount_length, hkey, mvsPut16_length, List.length_replicate]
  cases last with
  | false =>
    simp only [Bool.false_eq_true, if_false, List.length_nil] at hroom ⊢
    omega
  | true =>
    simp only [if_true, List.length_replicate] at hroom ⊢
    omega

theorem dirRecord_at {b : Buffer} {p : ℕ} (h : At b p (dirRecord key last es)) : DirAt b p last es := by
  rw [dirRecord, at_append, at_append] at h
  obtain ⟨⟨hcount, -⟩, hbody⟩ := h
  have hlen : p + (mvsPutCount 0 0 0 8 256 ++ key).length = p + 20 := by rw [List.length_append, mvsPutCount_length, hkey]
  rw [hlen, at_append, at_append, at_append] at hbody
  obtain ⟨⟨⟨hused, hent⟩, hend⟩, -⟩ := hbody
  refine ⟨hcount 9 (by decide), ?_, ?_, hent, ?_⟩
  · have h10 := hcount 10 (by decide)
    have h11 := hcount 11 (by decide)
    rw [mvsBe16, h10, h11]
    rfl
  · have hb := mvsBe16_at_nat hused (by omega)
    exact hb
  · rintro rfl
    rw [if_pos rfl, List.length_append, mvsPut16_length, add_assoc p, ← add_assoc 20, ← add_assoc p] at hend
    exact hend

end Record

section Entries

variable {stop : ℕ → Bool} {b b' : Buffer} {dir used : ℕ}

/-- Of each entry the walk reads the first bytes, for the end of the directory, and the byte that has the length. -/
def entryReads (stop : ℕ → Bool) (width : ℕ) (b : Buffer) (dir used : ℕ) : ℕ → ℕ → List Span
  | 0, _ => []
  | fuel + 1, q =>
    if q + 12 ≤ used then
      ⟨dir + q, width⟩ ::
        if stop (dir + q) then [] else ⟨dir + q + 11, 1⟩ :: entryReads stop width b dir used fuel (q + entryLen b (dir + q))
    else []

theorem entryReads_within {width n : ℕ} (hw : width ≤ 12) (hn : dir + used ≤ n) (fuel q : ℕ) :
    Within n (entryReads stop width b dir used fuel q) := by
  induction fuel generalizing q with
  | zero => exact within_nil
  | succ fuel ih =>
    rw [entryReads]
    by_cases hgo : q + 12 ≤ used
    · rw [if_pos hgo, within_cons]
      refine ⟨.inr (by dsimp only; omega), ?_⟩
      by_cases hs : stop (dir + q) = true
      · rw [if_pos hs]
        exact within_nil
      · rw [if_neg hs, within_cons]
        exact ⟨.inr (by dsimp only; omega), ih _⟩
    · rw [if_neg hgo]
      exact within_nil

/-- The entries lie in the block, and those before the one that ends the directory have their user data there, too. -/
theorem mem_entryWalk {fuel q e : ℕ} (he : e ∈ (entryWalk stop b dir used fuel q).1) :
    e + 12 ≤ dir + used ∧ ((entryWalk stop b dir used fuel q).2 = true → e + entryLen b e + 12 ≤ dir + used) := by
  induction fuel generalizing q with
  | zero => exact absurd he List.not_mem_nil
  | succ fuel ih =>
    rw [entryWalk] at he ⊢
    by_cases hgo : q + 12 ≤ used
    · rw [if_pos hgo] at he ⊢
      by_cases hs : stop (dir + q) = true
      · rw [if_pos hs] at he
        exact absurd he List.not_mem_nil
      · rw [if_neg hs] at he ⊢
        rcases List.mem_cons.mp he with rfl | he
        · refine ⟨by omega, ?_⟩
          intro hend
          dsimp only at hend
          cases fuel with
          | zero => exact absurd hend nofun
          | succ fuel =>
            rw [entryWalk] at hend
            split_ifs at hend <;> omega
        · exact ih he
    · rw [if_neg hgo] at he
      exact absurd he List.not_mem_nil

end Entries

end Cc370
