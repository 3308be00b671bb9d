import Mathlib.Data.Nat.Count
import Mathlib.Tactic.Common

namespace Cc370.Gaps

/-- `a` is the last of the marks that does not lie above `p`. -/
structure Under (S : Set ℕ) (a p : ℕ) : Prop where
  mem : a ∈ S
  le : a ≤ p
  last : ∀ b ∈ S, b ≤ p → b ≤ a

/-- A point goes when the mark it stands behind is one of those to go. -/
def Cut (S : Set ℕ) (V : ℕ → Prop) (p : ℕ) : Prop := ∃ a, Under S a p ∧ V a

section Marks

variable {S : Set ℕ} {V W : ℕ → Prop} {a b p : ℕ}

theorem Under.unique (ha : Under S a p) (hb : Under S b p) : a = b :=
  (hb.last a ha.mem ha.le).antisymm (ha.last b hb.mem hb.le)

theorem exists_under (ha : a ∈ S) (hp : a ≤ p) : ∃ b, Under S b p ∧ a ≤ b := by
  classical
  have hspec : Nat.findGreatest (· ∈ S) p ∈ S := Nat.findGreatest_spec hp ha
  refine ⟨Nat.findGreatest (· ∈ S) p, ⟨hspec, Nat.findGreatest_le p, ?_⟩, Nat.le_findGreatest hp ha⟩
  intro b hb hle
  exact Nat.le_findGreatest hle hb

theorem Under.cut_iff (h : Under S a p) : Cut S V p ↔ V a := by
  constructor
  · rintro ⟨b, hb, hv⟩
    rwa [h.unique hb]
  · intro hv
    exact ⟨a, h, hv⟩

theorem cut_self (ha : a ∈ S) : Cut S V a ↔ V a :=
  Under.cut_iff ⟨ha, le_rfl, fun _ _ h => h⟩

end Marks

section Counting

variable {P Q : ℕ → Prop} [DecidablePred P] [DecidablePred Q] {a b : ℕ}

theorem count_between (h : a ≤ b) : Nat.count P b = Nat.count P a + Nat.count (fun k => P (a + k)) (b - a) := by
  rw [← Nat.count_add, Nat.add_sub_of_le h]

theorem count_le_add (h : a ≤ b) : Nat.count P b ≤ Nat.count P a + (b - a) := by
  rw [count_between h]
  exact Nat.add_le_add_left (Nat.count_le _) _

theorem count_all (h : a ≤ b) (hall : ∀ p, a ≤ p → p < b → P p) : Nat.count P b = Nat.count P a + (b - a) := by
  have hlast : Nat.count (fun k => P (a + k)) (b - a) = b - a := by
    apply Nat.count_iff_forall.mpr
    intro k hk
    exact hall (a + k) (by omega) (by omega)
  rw [count_between h, hlast]

theorem count_none (h : a ≤ b) (hnone : ∀ p, a ≤ p → p < b → ¬ P p) : Nat.count P b = Nat.count P a := by
  have hlast : Nat.count (fun k => P (a + k)) (b - a) = 0 := by
    apply Nat.count_iff_forall_not.mpr
    intro k hk
    exact hnone (a + k) (by omega) (by omega)
  rw [count_between h, hlast, add_zero]

theorem count_congr (h : ∀ p < b, P p ↔ Q p) : Nat.count P b = Nat.count Q b :=
  (Nat.count_mono_left fun p hp => (h p hp).mp).antisymm (Nat.count_mono_left fun p hp => (h p hp).mpr)

/-- Where every point goes by one rule and the first stays by the other, the two part. -/
theorem count_lt (h : a < b) (hall : ∀ p, a ≤ p → p < b → P p) (hq : ¬ Q a) :
    Nat.count Q b + Nat.count P a < Nat.count P b + Nat.count Q a := by
  have hp := count_all h.le hall
  have hstay : Nat.count Q (a + 1) = Nat.count Q a := Nat.count_succ_eq_count_iff.mpr hq
  have hrest : Nat.count Q b ≤ Nat.count Q (a + 1) + (b - (a + 1)) := count_le_add h
  omega

end Counting

section Rules

variable {S K : Set ℕ} {V W : ℕ → Prop}

/-- The marks that go take the points behind them along, up to the first that stays. -/
theorem cut_until {a b : ℕ} (ha : a ∈ S) (hv : V a) (hbetween : ∀ c ∈ S, a < c → c < b → V c) {p : ℕ} (hap : a ≤ p) (hpb : p < b) :
    Cut S V p := by
  obtain ⟨c, hc, hac⟩ := exists_under ha hap
  refine ⟨c, hc, ?_⟩
  rcases hac.eq_or_lt with rfl | hlt
  · exact hv
  · exact hbetween c hc.mem hlt (hc.le.trans_lt hpb)

variable [DecidablePred (Cut S V)] [DecidablePred (Cut S W)]

theorem rule_of_counts (hV : ∀ a ∈ S, a ∉ K → V a) (h : ∀ x ∈ K, Nat.count (Cut S V) x = Nat.count (Cut S W) x)
    {a x : ℕ} (ha : a ∈ S) (haK : a ∈ K) (hx : x ∈ K) (hax : a < x) (hv : V a) : W a := by
  classical
  by_contra hw
  -- `b` is the next of `K`: up to there every point goes by `V`, and `a` stays by `W`
  have hex : ∃ x, x ∈ K ∧ a < x := ⟨x, hx, hax⟩
  obtain ⟨hb, hab⟩ := Nat.find_spec hex
  have hall : ∀ p, a ≤ p → p < Nat.find hex → Cut S V p := by
    intro p hap hpb
    apply cut_until ha hv _ hap hpb
    intro c hc hac hcb
    apply hV c hc
    intro hcK
    exact Nat.find_min hex hcb ⟨hcK, hac⟩
  have hstays : ¬ Cut S W a := fun hcut => hw ((cut_self ha).mp hcut)
  have hlt := count_lt hab hall hstays
  rw [h a haK, h _ hb] at hlt
  omega

/-- Two rules that both let the marks outside `K` go move the marks of `K` alike just if they agree on
every mark that has one of `K` behind it. -/
theorem counts_agree_iff (hV : ∀ a ∈ S, a ∉ K → V a) (hW : ∀ a ∈ S, a ∉ K → W a) :
    (∀ x ∈ K, Nat.count (Cut S V) x = Nat.count (Cut S W) x) ↔ ∀ a ∈ S, (∃ x ∈ K, a < x) → (V a ↔ W a) := by
  constructor
  · rintro h a ha ⟨x, hx, hax⟩
    by_cases hk : a ∈ K
    · exact ⟨rule_of_counts hV h ha hk hx hax, rule_of_counts hW (fun x hx => (h x hx).symm) ha hk hx hax⟩
    · exact iff_of_true (hV a ha hk) (hW a ha hk)
  · intro h x hx
    apply count_congr
    intro p hp
    constructor
    · rintro ⟨a, ha, hv⟩
      exact ⟨a, ha, (h a ha.mem ⟨x, hx, ha.le.trans_lt hp⟩).mp hv⟩
    · rintro ⟨a, ha, hw⟩
      exact ⟨a, ha, (h a ha.mem ⟨x, hx, ha.le.trans_lt hp⟩).mpr hw⟩

end Rules

end Cc370.Gaps
