import Cc370.As370.Adcon
import Cc370.As370.ExprScan

namespace Cc370.As370

section Tally

variable (S : Scope) (m : ℕ)

def addTarget (ks : List Target) (x : Target) : List Target :=
  if x ∈ ks then ks else if ks.length < m then ks ++ [x] else ks

/-- The first `m` different targets. -/
def firstTargets (xs : List Target) : List Target := xs.foldl (addTarget m) []

def signSum (l : List (Atom × ℤ)) (x : Target) : ℤ :=
  (l.map fun y => if y.1.target S = some x then y.2 else 0).sum

variable {S} {m}

theorem firstTargets_snoc (xs : List Target) (x : Target) :
    firstTargets m (xs ++ [x]) = addTarget m (firstTargets m xs) x := by
  rw [firstTargets, List.foldl_append]
  rfl

theorem signSum_snoc (l : List (Atom × ℤ)) (y : Atom × ℤ) (x : Target) :
    signSum S (l ++ [y]) x = signSum S l x + if y.1.target S = some x then y.2 else 0 := by
  simp [signSum]

theorem firstTargets_nodup (xs : List Target) : (firstTargets m xs).Nodup := by
  induction xs using List.reverseRecOn with
  | nil => exact List.nodup_nil
  | append_singleton xs x ih =>
    rw [firstTargets_snoc, addTarget]
    split_ifs with h1 h2
    · exact ih
    · apply ih.append (List.nodup_singleton x)
      simpa using h1
    · exact ih

theorem mem_of_firstTargets_short (xs : List Target) (h : (firstTargets m xs).length < m) :
    ∀ x ∈ xs, x ∈ firstTargets m xs := by
  induction xs using List.reverseRecOn with
  | nil => simp
  | append_singleton xs x ih =>
    rw [firstTargets_snoc, addTarget] at h ⊢
    intro y hy
    rw [List.mem_append, List.mem_singleton] at hy
    split_ifs at h ⊢ with h1 h2
    · rcases hy with hy | rfl
      · exact ih h y hy
      · exact h1
    · rcases hy with hy | rfl
      · exact List.mem_append_left _ (ih h2 y hy)
      · simp
    · exact absurd h h2

theorem signSum_eq_zero {l : List (Atom × ℤ)} {x : Target}
    (h : x ∉ l.filterMap fun y => y.1.target S) : signSum S l x = 0 := by
  apply List.sum_eq_zero
  intro n hn
  obtain ⟨y, hy, rfl⟩ := List.mem_map.mp hn
  rw [if_neg]
  intro hx
  exact h (List.mem_filterMap.mpr ⟨y, hy, hx⟩)

/-- The tally lists the first targets, each with the sum of the signs of its terms. -/
theorem foldl_tallyAtom (l : List (Atom × ℤ)) : l.foldl (tallyAtom S m) [] =
    (firstTargets m (l.filterMap fun y => y.1.target S)).map fun x => (x, signSum S l x) := by
  induction l using List.reverseRecOn with
  | nil => rfl
  | append_singleton l y ih =>
    rw [List.foldl_append, List.foldl_cons, List.foldl_nil, ih, List.filterMap_append, tallyAtom]
    cases hy : y.1.target S with
    | none =>
      have hsum : signSum S (l ++ [y]) = signSum S l := by
        funext x
        rw [signSum_snoc, hy]
        simp
      simp [hsum, hy]
    | some x =>
      have hmap : List.filterMap (fun y : Atom × ℤ => y.1.target S) [y] = [x] := by simp [hy]
      rw [hmap, firstTargets_snoc, addTarget]
      dsimp only [Option.elim_some]
      rw [tally]
      have hany : ((firstTargets m (l.filterMap fun y => y.1.target S)).map fun x => (x, signSum S l x)).any
          (fun z => z.1 = x) = decide (x ∈ firstTargets m (l.filterMap fun y => y.1.target S)) := by
        rw [Bool.eq_iff_iff]
        simp
      rw [hany, List.length_map]
      by_cases h1 : x ∈ firstTargets m (l.filterMap fun y => y.1.target S)
      · rw [if_pos (by simpa using h1), if_pos h1, List.map_map]
        apply List.map_congr_left
        intro z _
        simp only [Function.comp_apply]
        rw [signSum_snoc, hy]
        by_cases hz : z = x
        · simp [hz]
        · rw [if_neg hz, if_neg (by simpa using fun h => hz h.symm), add_zero]
      · rw [if_neg (by simpa using h1), if_neg h1]
        have hold (z : Target) (hz : z ∈ firstTargets m (l.filterMap fun y => y.1.target S)) :
            signSum S (l ++ [y]) z = signSum S l z := by
          rw [signSum_snoc, hy, if_neg, add_zero]
          rintro ⟨⟩
          exact h1 hz
        by_cases h2 : (firstTargets m (l.filterMap fun y => y.1.target S)).length < m
        · have hnew : x ∉ l.filterMap fun y => y.1.target S := fun h => h1 (mem_of_firstTargets_short _ h2 x h)
          rw [if_pos h2, if_pos h2, List.map_append, List.map_cons, List.map_nil]
          congr 1
          · apply List.map_congr_left
            intro z hz
            rw [hold z hz]
          · rw [signSum_snoc, signSum_eq_zero hnew, hy, if_pos rfl, zero_add]
        · rw [if_neg h2, if_neg h2]
          apply List.map_congr_left
          intro z hz
          rw [hold z hz]

end Tally

namespace Expr

variable (S : Scope)

/-- The net coefficient of a target, with signs distributed through the groups. -/
def net : Expr → Target → ℤ
  | atom a, x => if a.target S = some x then 1 else 0
  | group e, x => net e x
  | neg e, x => -net e x
  | pos e, x => net e x
  | mul _ _ _, _ => 0
  | add minus a b, x => net a x + if minus then -net b x else net b x

def targets (e : Expr) : List Target := e.atoms.filterMap (Atom.target S)

/-- The operands of products and quotients are absolute. -/
def MulOk : Expr → Prop
  | atom _ => True
  | group e => e.MulOk
  | neg e => e.MulOk
  | pos e => e.MulOk
  | mul _ a b => a.MulOk ∧ b.MulOk ∧ (∀ x, net S a x = 0) ∧ ∀ x, net S b x = 0
  | add _ a b => a.MulOk ∧ b.MulOk

/-- The targets that the tally has room for. -/
def listed (e : Expr) : List Target := firstTargets 8 (e.targets S)

/-- The sum of the signs written directly before the terms of a target, where the tally holds it. -/
def written (e : Expr) (x : Target) : ℤ := if x ∈ e.listed S then signSum S (e.scan 1) x else 0

end Expr

section Net

variable {S : Scope}

theorem scan_atoms (e : Expr) (sign : ℤ) : (e.scan sign).map Prod.fst = e.atoms := by
  induction e generalizing sign with
  | atom a => rfl
  | group e ih => exact ih sign
  | neg e ih => exact ih (-sign)
  | pos e ih => exact ih sign
  | mul div a b iha ihb => simp [Expr.scan, Expr.atoms, iha, ihb]
  | add minus a b iha ihb => simp [Expr.scan, Expr.atoms, iha, ihb]

theorem scan_targets (e : Expr) (sign : ℤ) :
    (e.scan sign).filterMap (fun y => y.1.target S) = e.targets S := by
  rw [Expr.targets, ← scan_atoms e sign, List.filterMap_map]
  rfl

theorem tally_eq (e : Expr) (he : e.Proper)
    (hS : ∀ kind body, .sdt kind body ∈ e.atoms → S.find (Atom.sdt kind body).text = none) :
    S.exprSectTerms 8 (e.text.length + 1) e.text 1 true [] =
      (e.listed S).map fun x => (x, signSum S (e.scan 1) x) := by
  rw [exprSectTerms_eq e he hS, foldl_tallyAtom, scan_targets]
  rfl

theorem net_eq_zero (e : Expr) {x : Target} (h : x ∉ e.targets S) : e.net S x = 0 := by
  induction e with
  | atom a =>
    rw [Expr.net, if_neg]
    intro ha
    exact h (List.mem_filterMap.mpr ⟨a, by simp [Expr.atoms], ha⟩)
  | group e ih => exact ih h
  | neg e ih => rw [Expr.net, ih h, neg_zero]
  | pos e ih => exact ih h
  | mul div a b iha ihb => rfl
  | add minus a b iha ihb =>
    simp only [Expr.targets, Expr.atoms, List.filterMap_append, List.mem_append, not_or] at h
    rw [Expr.net, iha h.1, ihb h.2]
    cases minus <;> rfl

/-- The terms that the evaluator counts are those with a target. -/
def Counted (S : Scope) (e : Expr) : Prop := ∀ a ∈ e.atoms, a.counted S = (a.target S).isSome

theorem targets_subset {a b : Expr} {s : Finset Target}
    (hs : ∀ x ∈ (a.atoms ++ b.atoms).filterMap (Atom.target S), x ∈ s) :
    (∀ x ∈ a.targets S, x ∈ s) ∧ ∀ x ∈ b.targets S, x ∈ s := by
  rw [List.filterMap_append] at hs
  exact ⟨fun x hx => hs x (List.mem_append_left _ hx), fun x hx => hs x (List.mem_append_right _ hx)⟩

theorem counted_of_append {a b : Expr} (hc : ∀ c ∈ a.atoms ++ b.atoms, c.counted S = (c.target S).isSome) :
    Counted S a ∧ Counted S b :=
  ⟨fun c h => hc c (List.mem_append_left _ h), fun c h => hc c (List.mem_append_right _ h)⟩

/-- The net relocation count of the evaluator is the sum of the net coefficients. -/
theorem sum_net (e : Expr) (he : e.Proper) (s : Finset Target) (hs : ∀ x ∈ e.targets S, x ∈ s)
    (hc : Counted S e) (hm : e.MulOk S) :
    (e.contrib S 1 = ∑ x ∈ s, e.net S x) ∧
    (e.level ≤ 1 → e.contrib S (-1) = -∑ x ∈ s, e.net S x) ∧
    (e.level = 0 → ∑ x ∈ s, e.net S x = 0 → e.contrib S 0 = 0) := by
  induction e with
  | atom a =>
    have ha := hc a (by simp [Expr.atoms])
    have hsum : ∑ x ∈ s, (Expr.atom a).net S x = if a.counted S then 1 else 0 := by
      cases ht : a.target S with
      | none => simp [Expr.net, ha, ht]
      | some y =>
        have hy : y ∈ s := hs y (List.mem_filterMap.mpr ⟨a, by simp [Expr.atoms], ht⟩)
        simp [Expr.net, ha, ht, hy]
    rw [hsum]
    refine ⟨rfl, fun _ => ?_, fun _ _ => ?_⟩
    · rw [Expr.contrib]
      split_ifs <;> rfl
    · rw [Expr.contrib]
      split_ifs <;> rfl
  | group e ih =>
    obtain ⟨h1, -, -⟩ := ih he hs hc hm
    have hnet : (Expr.group e).net S = e.net S := rfl
    rw [hnet]
    refine ⟨?_, fun _ => ?_, fun _ h0 => ?_⟩
    · rw [Expr.contrib, if_neg (by decide), h1]
    · rw [Expr.contrib, if_pos (by decide), h1]
    · rw [Expr.contrib, if_neg (by decide), h1, h0]
  | neg e ih =>
    obtain ⟨h1, h2, h3⟩ := ih he.2 hs hc hm
    have hsum : ∑ x ∈ s, (Expr.neg e).net S x = -∑ x ∈ s, e.net S x := by
      rw [← Finset.sum_neg_distrib]
      rfl
    rw [hsum]
    refine ⟨h2 (he.1.le.trans zero_le_one), fun _ => ?_, fun _ h0 => ?_⟩
    · rw [Expr.contrib, neg_neg, neg_neg, h1]
    · rw [Expr.contrib, neg_zero]
      apply h3 he.1
      omega
  | pos e ih =>
    obtain ⟨h1, h2, h3⟩ := ih he.2 hs hc hm
    exact ⟨h1, fun _ => h2 (he.1.le.trans zero_le_one), fun _ h0 => h3 he.1 h0⟩
  | mul div a b iha ihb =>
    obtain ⟨hla, hlb, hpa, hpb⟩ := he
    obtain ⟨hma, hmb, hza, hzb⟩ := hm
    obtain ⟨hsa, hsb⟩ := targets_subset hs
    obtain ⟨hca, hcb⟩ := counted_of_append hc
    obtain ⟨ha1, ha2, -⟩ := iha hpa hsa hca hma
    obtain ⟨-, -, hb3⟩ := ihb hpb hsb hcb hmb
    have ha0 : ∑ x ∈ s, a.net S x = 0 := Finset.sum_eq_zero fun x _ => hza x
    have hb0 : b.contrib S 0 = 0 := hb3 hlb (Finset.sum_eq_zero fun x _ => hzb x)
    have hsum : ∑ x ∈ s, (Expr.mul div a b).net S x = 0 := Finset.sum_eq_zero fun x _ => rfl
    rw [hsum]
    refine ⟨?_, fun _ => ?_, fun h => absurd h (by simp [Expr.level])⟩
    · rw [Expr.contrib, ha1, ha0, hb0, add_zero]
    · rw [Expr.contrib, ha2 hla, ha0, hb0, add_zero]
  | add minus a b iha ihb =>
    obtain ⟨hlb, hpa, hpb⟩ := he
    obtain ⟨hma, hmb⟩ := hm
    obtain ⟨hsa, hsb⟩ := targets_subset hs
    obtain ⟨hca, hcb⟩ := counted_of_append hc
    obtain ⟨ha1, -, -⟩ := iha hpa hsa hca hma
    obtain ⟨hb1, hb2, -⟩ := ihb hpb hsb hcb hmb
    refine ⟨?_, fun h => absurd h (by simp [Expr.level]), fun h => absurd h (by simp [Expr.level])⟩
    simp only [Expr.net, Expr.contrib]
    rw [Finset.sum_add_distrib, ha1]
    cases minus with
    | false =>
      simp only [Bool.false_eq_true, ↓reduceIte]
      rw [hb1]
    | true =>
      simp only [↓reduceIte]
      rw [hb2 hlb, Finset.sum_neg_distrib]

theorem text_head (e : Expr) (he : e.Proper) : ∃ c t, e.text = c :: t ∧ c ≠ ' ' := by
  induction e with
  | atom a =>
    cases a with
    | num ds =>
      obtain ⟨c, t, rfl⟩ := List.exists_cons_of_ne_nil he.1
      refine ⟨c, t, rfl, ?_⟩
      rintro rfl
      exact absurd (he.2 ' ' (by simp)) (by decide)
    | sdt kind body =>
      refine ⟨kind, _, rfl, ?_⟩
      rcases he.1 with rfl | rfl | rfl <;> decide
    | star => exact ⟨'*', [], rfl, by decide⟩
    | sym nm =>
      obtain ⟨c, t, rfl⟩ := List.exists_cons_of_ne_nil he.1
      refine ⟨c, t, rfl, ?_⟩
      rintro rfl
      exact absurd (he.2.2.2 ' ' (by simp)).1 (by decide)
  | group e ih => exact ⟨'(', _, rfl, by decide⟩
  | neg e ih => exact ⟨'-', _, rfl, by decide⟩
  | pos e ih => exact ⟨'+', _, rfl, by decide⟩
  | mul div a b iha ihb =>
    obtain ⟨c, t, ht, hc⟩ := iha he.2.2.1
    exact ⟨c, _, by rw [Expr.text, ht, List.cons_append], hc⟩
  | add minus a b iha ihb =>
    obtain ⟨c, t, ht, hc⟩ := iha he.2.1
    exact ⟨c, _, by rw [Expr.text, ht, List.cons_append], hc⟩

theorem exprValFull_count (e : Expr) (he : e.Proper) (hok : Scope.exprErr (S.exprValFull e.text).2.2 = false) :
    (S.exprValFull e.text).2.1 = e.contrib S 1 := by
  obtain ⟨c, t, ht, hc⟩ := text_head e he
  have hskip : skipBlanks e.text = e.text := by
    rw [ht]
    exact skipBlanks_cons hc t
  have hne : e.text ≠ [] := by simp [ht]
  obtain ⟨-, -, hsum⟩ := eval_text (S := S) e he
  obtain ⟨v, st', fuel', hadd, hf, hread⟩ := hsum [] (Scope.exprFuel e.text) (Scope.initial e.text)
    (by simp [EndsTerm]) (by simp [Scope.exprFuel]) (by simp [Scope.initial])
  obtain ⟨fuel', rfl⟩ := Nat.exists_eq_add_one_of_ne_zero (by omega : fuel' ≠ 0)
  rw [xAddLoop_stop (by simp) hread.rest] at hadd
  have hval : S.exprValFull e.text = if Scope.exprErr st' then (0, 0, st') else (v, st'.xrl, st') := by
    rw [Scope.exprValFull, hskip, if_neg hne, hadd]
  rw [hval] at hok ⊢
  have herr : Scope.exprErr st' = false := by
    cases h : Scope.exprErr st' with
    | false => rfl
    | true =>
      rw [h, if_pos rfl] at hok
      rw [← hok, h]
  rw [herr, if_neg (by simp)]
  have hxrl := hread.xrl
  rw [hxrl]
  exact zero_add _

end Net

end Cc370.As370
