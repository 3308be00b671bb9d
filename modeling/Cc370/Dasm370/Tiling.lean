import Cc370.Dasm370.Walk
import Cc370.Lib.Tiles

namespace Cc370.Dasm370

open Obj370 Tiles

namespace Stmt

/-- The bytes that the assembler gives to a statement. -/
def size : Stmt → ℕ
  | ds n => n
  | dcHex bytes => bytes.length
  | dcAddr c => c.mod.getD 4
  | insn o _ => insLenOf o.fmt

/-- Its boundary: a halfword for an instruction, a fullword for an address without a length. -/
def align : Stmt → ℕ
  | dcAddr c => if c.mod = none then 4 else 1
  | insn .. => 2
  | _ => 1

def isDs : Stmt → Bool
  | ds _ => true
  | _ => false

def isAddr : Stmt → Bool
  | dcAddr _ => true
  | _ => false

def isHex : Stmt → Bool
  | dcHex _ => true
  | _ => false

end Stmt

def alignUp (loc n : ℕ) : ℕ := (loc + n - 1) / n * n

/-- Where the assembler puts the statements from a location on. -/
def place : ℕ → List Stmt → List (ℕ × Stmt)
  | _, [] => []
  | loc, t :: ts => (alignUp loc t.align, t) :: place (alignUp loc t.align + t.size) ts

theorem alignUp_eq {loc n : ℕ} (hn : 0 < n) (h : loc % n = 0) : alignUp loc n = loc := by
  obtain ⟨k, rfl⟩ := Nat.dvd_of_mod_eq_zero h
  have hk : (n * k + n - 1) / n = k := by
    have h1 : n * k + n - 1 = n * k + (n - 1) := by omega
    rw [h1, Nat.mul_add_div hn, Nat.div_eq_of_lt (by omega), add_zero]
  rw [alignUp, hk, Nat.mul_comm]

section Extend

variable {ok : ℕ → Bool} {fuel n : ℕ}

theorem le_extend : n ≤ Sect.extend ok fuel n := by
  induction fuel generalizing n with
  | zero => exact le_rfl
  | succ fuel ih =>
    rw [Sect.extend]
    split_ifs
    · exact (Nat.le_succ n).trans ih
    · exact le_rfl

/-- A run is extended only over places that are right. -/
theorem ok_of_lt_extend {m : ℕ} (hn : n ≤ m) (hm : m < Sect.extend ok fuel n) : ok m = true := by
  induction fuel generalizing n with
  | zero => exact absurd hm (by simp only [Sect.extend]; omega)
  | succ fuel ih =>
    rw [Sect.extend] at hm
    split_ifs at hm with hok
    · rcases Nat.eq_or_lt_of_le hn with rfl | hlt
      · exact hok
      · exact ih hlt hm
    · omega

end Extend

/-- The relocatable fields lie in the section, in its text, and apart from each other. -/
structure FieldsOk (s : Sect) : Prop where
  pos : ∀ r ∈ s.rld, 0 < r.len
  inside : ∀ r ∈ s.rld, r.addr + r.len ≤ s.len
  cov : ∀ r ∈ s.rld, ∀ b, r.addr ≤ b → b < r.addr + r.len → s.cov b = true
  apart : s.rld.Pairwise fun x y => x.addr + x.len ≤ y.addr ∨ y.addr + y.len ≤ x.addr

section Step

variable {s : Sect} {optab : List Opc} {a : ℕ}

theorem FieldsOk.disjoint (h : FieldsOk s) {x y : RldItem} (hx : x ∈ s.rld) (hy : y ∈ s.rld) (hne : x ≠ y) :
    x.addr + x.len ≤ y.addr ∨ y.addr + y.len ≤ x.addr := by
  have hsymm : Std.Symm fun x y : RldItem => x.addr + x.len ≤ y.addr ∨ y.addr + y.len ≤ x.addr := ⟨fun _ _ h => h.symm⟩
  exact h.apart.forall hx hy hne

theorem mem_of_rldAt {r : RldItem} (h : s.rldAt a = some r) : r ∈ s.rld ∧ r.addr = a :=
  ⟨List.mem_of_find?_eq_some h, by simpa using List.find?_some h⟩

theorem FieldsOk.rldAt (h : FieldsOk s) {r : RldItem} (hr : r ∈ s.rld) : s.rldAt r.addr = some r := by
  cases hat : s.rldAt r.addr with
  | none =>
    have hno := List.find?_eq_none.mp hat r hr
    simp at hno
  | some x =>
    obtain ⟨hx, haddr⟩ := mem_of_rldAt hat
    by_contra hne
    have hpx := h.pos x hx
    have hpr := h.pos r hr
    rcases h.disjoint hx hr (fun he => hne (congrArg some he)) with hd | hd <;> omega

/-- The offset is not in the middle of a relocatable field. -/
def Free (s : Sect) (a : ℕ) : Prop := ∀ r ∈ s.rld, ¬ (r.addr < a ∧ a < r.addr + r.len)

/-- What one statement does: it takes whole bytes on its own boundary, all of them text or none, and
no relocatable field begins or ends within it. -/
structure StepOk (s : Sect) (a n : ℕ) (t : Stmt) : Prop where
  pos : 0 < n
  inside : a + n ≤ s.len
  size : t.size = n
  align : a % t.align = 0
  cov : ∀ m < n, s.cov (a + m) = !t.isDs
  hex : ∀ bs, t = .dcHex bs → bs = (List.range n).map fun i => s.img (a + i)
  free : Free s (a + n)
  starts : ∀ r ∈ s.rld, a < r.addr → a + n ≤ r.addr

/-- The constant of a field: of an address if its target has a name, else of its bytes. -/
theorem adcon_cases (r : RldItem) : if s.named r then ∃ c, s.adcon a r = .dcAddr c ∧ c.mod = Sect.lenMod a r
    else s.adcon a r = s.dcHex a r.len := by
  simp only [Sect.adcon, Sect.named]
  by_cases hown : r.r = s.esdid
  · rw [if_pos hown, if_pos (by simp [hown])]
    split_ifs
    · exact ⟨_, rfl, rfl⟩
    · exact ⟨_, rfl, rfl⟩
  · rw [if_neg hown]
    by_cases hext : 0 < r.r ∧ r.r < maxEsd ∧ s.esdName r.r ≠ []
    · rw [if_pos hext, if_pos (by simp [hext])]
      generalize (s.fieldVal r : ℤ) - (if s.esdSection r.r then (s.esdAddr r.r : ℤ) else 0) = addend
      split_ifs
      · exact ⟨_, rfl, rfl⟩
      · exact ⟨_, rfl, rfl⟩
    · rw [if_neg hext, if_neg (by simp [hown, hext])]

theorem adcon_size (r : RldItem) : (s.adcon a r).size = r.len ∧ a % (s.adcon a r).align = 0 := by
  have hcases := adcon_cases (s := s) (a := a) r
  split_ifs at hcases with hn
  · obtain ⟨c, hc, hmod⟩ := hcases
    rw [hc, Stmt.size, Stmt.align, hmod, Sect.lenMod]
    by_cases h : r.len = 4 ∧ a % 4 = 0
    · rw [if_pos h, if_pos rfl]
      exact ⟨h.1.symm, h.2⟩
    · rw [if_neg h, if_neg (by simp)]
      exact ⟨rfl, Nat.mod_one a⟩
  · rw [hcases]
    exact ⟨by simp [Sect.dcHex, Stmt.size], Nat.mod_one a⟩

theorem adcon_kind (r : RldItem) : (s.adcon a r).isDs = false ∧
    ∀ bs, s.adcon a r = .dcHex bs → bs = (List.range r.len).map fun i => s.img (a + i) := by
  have hcases := adcon_cases (s := s) (a := a) r
  split_ifs at hcases with hn
  · obtain ⟨c, hc, -⟩ := hcases
    rw [hc]
    exact ⟨rfl, nofun⟩
  · rw [hcases]
    exact ⟨rfl, fun bs h => (Stmt.dcHex.inj h).symm⟩

theorem stepOk_hole (h : FieldsOk s) (ha : a < s.len) (hc : s.cov a = false) {n : ℕ}
    (hn : n = Sect.extend (fun n => a + n < s.len ∧ !s.cov (a + n) ∧ !s.lab (a + n)) (s.len - a) 1) :
    StepOk s a n (.ds n) := by
  have hpos : 1 ≤ n := hn ▸ le_extend
  have hrun : ∀ m, 1 ≤ m → m < n → a + m < s.len ∧ s.cov (a + m) = false := by
    intro m h1 hm
    have hok := ok_of_lt_extend h1 (hn ▸ hm)
    simp only [Bool.not_eq_true', decide_eq_true_eq] at hok
    exact ⟨hok.1, hok.2.1⟩
  have hcov : ∀ m < n, s.cov (a + m) = false := by
    intro m hm
    rcases Nat.eq_zero_or_pos m with rfl | h1
    · exact hc
    · exact (hrun m h1 hm).2
  have hinside : a + n ≤ s.len := by
    rcases Nat.eq_or_lt_of_le hpos with h1 | h1
    · omega
    · have := (hrun (n - 1) (by omega) (by omega)).1
      omega
  refine ⟨hpos, hinside, rfl, Nat.mod_one a, fun m hm => ?_, nofun, ?_, ?_⟩
  · rw [hcov m hm]
    rfl
  · rintro r hr ⟨h1, h2⟩
    have hin := h.cov r hr (a + (n - 1)) (by omega) (by omega)
    rw [hcov (n - 1) (by omega)] at hin
    exact absurd hin (by simp)
  · intro r hr hlt
    by_contra hge
    have hin := h.cov r hr (a + (r.addr - a)) (by omega) (by have := h.pos r hr; omega)
    rw [hcov (r.addr - a) (by omega)] at hin
    exact absurd hin (by simp)

theorem stepOk_adcon (h : FieldsOk s) {r : RldItem} (hr : s.rldAt a = some r) : StepOk s a r.len (s.adcon a r) := by
  obtain ⟨hmem, rfl⟩ := mem_of_rldAt hr
  have hpos := h.pos r hmem
  obtain ⟨hsize, halign⟩ := adcon_size (a := r.addr) (s := s) r
  obtain ⟨hds, hhex⟩ := adcon_kind (s := s) (a := r.addr) r
  refine ⟨hpos, h.inside r hmem, hsize, halign, fun m hm => ?_, hhex, ?_, ?_⟩
  · rw [hds, h.cov r hmem _ (by omega) (by omega)]
    rfl
  · rintro x hx ⟨h1, h2⟩
    have hne : r ≠ x := by
      rintro rfl
      omega
    rcases h.disjoint hmem hx hne with hd | hd <;> omega
  · intro x hx hlt
    have hne : r ≠ x := by
      rintro rfl
      omega
    rcases h.disjoint hmem hx hne with hd | hd
    · exact hd
    · have := h.pos x hx
      omega

theorem stepOk_insn {n : ℕ} {t : Stmt} (hi : s.insnAt optab a = some (n, t)) : StepOk s a n t := by
  rw [Sect.insnAt] at hi
  split_ifs at hi with heven
  cases hop : findOp optab (s.img a) (s.img (a + 1)) with
  | none => exact absurd hi (by simp [hop])
  | some o =>
    simp only [hop] at hi
    cases hopnd : operands o (fun i => s.img (a + i)) with
    | none => exact absurd hi (by simp [hopnd])
    | some opnd =>
      simp only [hopnd] at hi
      split_ifs at hi with hall
      obtain ⟨hlen, hrld, -, -, hcov⟩ := hall
      obtain ⟨rfl, rfl⟩ := Prod.mk.inj (Option.some.inj hi)
      have hpos : 0 < insLenOf o.fmt := by
        rw [insLenOf]
        split_ifs <;> decide
      have hno : ∀ r ∈ s.rld, ¬ (a < r.addr + r.len ∧ r.addr < a + insLenOf o.fmt) := by
        intro r hr hover
        rw [Bool.not_eq_true', Sect.rldOverlaps, List.any_eq_false] at hrld
        exact hrld r hr (decide_eq_true hover)
      refine ⟨hpos, hlen, rfl, heven.2, fun m hm => ?_, nofun, ?_, ?_⟩
      · exact List.all_eq_true.mp hcov m (List.mem_range.mpr hm)
      · rintro r hr ⟨h1, h2⟩
        exact hno r hr ⟨by omega, h1⟩
      · intro r hr hlt
        by_contra hge
        exact hno r hr ⟨by omega, by omega⟩

theorem stepOk_hex (h : FieldsOk s) (ha : a < s.len) (hc : s.cov a = true) (hfree : Free s a) (hr : s.rldAt a = none) {n : ℕ}
    (hn : n = Sect.extend (fun n => a + n < s.len ∧ s.cov (a + n) ∧ !s.lab (a + n) ∧ s.rldAt (a + n) = none) 15 1) :
    StepOk s a n (s.dcHex a n) := by
  have hpos : 1 ≤ n := hn ▸ le_extend
  have hrun : ∀ m, 1 ≤ m → m < n → a + m < s.len ∧ s.cov (a + m) = true ∧ s.rldAt (a + m) = none := by
    intro m h1 hm
    have hok := ok_of_lt_extend h1 (hn ▸ hm)
    simp only [Bool.not_eq_true', decide_eq_true_eq] at hok
    exact ⟨hok.1, hok.2.1, hok.2.2.2⟩
  have hrld : ∀ m < n, s.rldAt (a + m) = none := by
    intro m hm
    rcases Nat.eq_zero_or_pos m with rfl | h1
    · exact hr
    · exact (hrun m h1 hm).2.2
  have hstarts : ∀ r ∈ s.rld, a ≤ r.addr → a + n ≤ r.addr := by
    intro r hmem hle
    by_contra hlt
    have hnone := hrld (r.addr - a) (by omega)
    rw [Nat.add_sub_cancel' hle, h.rldAt hmem] at hnone
    exact absurd hnone (by simp)
  have hinside : a + n ≤ s.len := by
    rcases Nat.eq_or_lt_of_le hpos with h1 | h1
    · omega
    · have := (hrun (n - 1) (by omega) (by omega)).1
      omega
  refine ⟨hpos, hinside, by simp [Sect.dcHex, Stmt.size], Nat.mod_one a, fun m hm => ?_,
    fun bs hbs => (Stmt.dcHex.inj hbs).symm, ?_, fun r hmem hlt => hstarts r hmem hlt.le⟩
  · rcases Nat.eq_zero_or_pos m with rfl | h1
    · exact hc
    · exact (hrun m h1 hm).2.1
  · rintro r hmem ⟨h1, h2⟩
    by_cases hlt : r.addr < a
    · exact hfree r hmem ⟨hlt, by omega⟩
    · have := hstarts r hmem (by omega)
      omega

/-- Every statement that is written is a step. -/
theorem stepOk_next (optab : List Opc) (h : FieldsOk s) (ha : a < s.len) (hfree : Free s a) :
    StepOk s a (s.next optab a).1 (s.next optab a).2 := by
  rw [Sect.next]
  cases hc : s.cov a with
  | false => exact stepOk_hole h ha hc rfl
  | true =>
    rw [if_neg (by simp)]
    cases hr : s.rldAt a with
    | some r => exact stepOk_adcon h hr
    | none =>
      cases hi : s.insnAt optab a with
      | some p => exact stepOk_insn hi
      | none => exact stepOk_hex h ha hc hfree hr rfl

/-- A relocatable field is written where it begins. -/
theorem next_of_mem (h : FieldsOk s) {r : RldItem} (hr : r ∈ s.rld) : s.next optab r.addr = (r.len, s.adcon r.addr r) := by
  have hc := h.cov r hr r.addr le_rfl (by have := h.pos r hr; omega)
  rw [Sect.next, hc, if_neg (by simp), h.rldAt hr]

end Step

section Run

variable {s : Sect} {optab : List Opc}

def Line.size (l : Line) : ℕ := l.stmt.size

theorem walkFrom_succ (fuel a : ℕ) : s.walkFrom optab (fuel + 1) a = if a < s.len then
    ⟨a, s.label a, (s.next optab a).2⟩ :: s.walkFrom optab fuel (a + (s.next optab a).1) else [] := rfl

/-- The statements stand one behind the other up to the end of the section. -/
theorem walkFrom_tile (optab : List Opc) (h : FieldsOk s) : ∀ {fuel a : ℕ}, Free s a → a ≤ s.len → s.len - a ≤ fuel →
    Tile Line.off Line.size a s.len (s.walkFrom optab fuel a) := by
  intro fuel
  induction fuel with
  | zero =>
    intro a _ hle hfuel
    change a = s.len
    omega
  | succ fuel ih =>
    intro a hfree hle hfuel
    rw [walkFrom_succ]
    split_ifs with ha
    · have hstep := stepOk_next optab h ha hfree
      have hpos := hstep.pos
      have hsize : Line.size ⟨a, s.label a, (s.next optab a).2⟩ = (s.next optab a).1 := hstep.size
      refine ⟨rfl, by rw [hsize]; exact hpos, ?_⟩
      rw [hsize]
      exact ih hstep.free hstep.inside (by omega)
    · change a = s.len
      omega

/-- Each of them is a step from where it was read. -/
theorem walkFrom_step (optab : List Opc) (h : FieldsOk s) : ∀ (fuel : ℕ) {a : ℕ}, Free s a → ∀ l ∈ s.walkFrom optab fuel a,
    StepOk s l.off l.size l.stmt := by
  intro fuel
  induction fuel with
  | zero =>
    intro a _ l hl
    exact absurd hl List.not_mem_nil
  | succ fuel ih =>
    intro a hfree l hl
    rw [walkFrom_succ] at hl
    split_ifs at hl with ha
    · have hstep := stepOk_next optab h ha hfree
      rcases List.mem_cons.mp hl with rfl | hl
      · have hsize : Line.size ⟨a, s.label a, (s.next optab a).2⟩ = (s.next optab a).1 := hstep.size
        rw [hsize]
        exact hstep
      · exact ih hstep.free l hl
    · exact absurd hl List.not_mem_nil

/-- A relocatable field is a statement of its own. -/
theorem walkFrom_field (h : FieldsOk s) {r : RldItem} (hr : r ∈ s.rld) : ∀ {fuel a : ℕ}, Free s a → a ≤ r.addr →
    s.len - a ≤ fuel → ⟨r.addr, s.label r.addr, s.adcon r.addr r⟩ ∈ s.walkFrom optab fuel a := by
  have hin := h.inside r hr
  have hlen := h.pos r hr
  intro fuel
  induction fuel with
  | zero =>
    intro a _ hle hfuel
    omega
  | succ fuel ih =>
    intro a hfree hle hfuel
    rw [walkFrom_succ, if_pos (by omega)]
    rcases Nat.eq_or_lt_of_le hle with rfl | hlt
    · rw [next_of_mem h hr]
      exact List.mem_cons_self
    · have hstep := stepOk_next optab h (by omega : a < s.len) hfree
      have hpos := hstep.pos
      exact List.mem_cons_of_mem _ (ih hstep.free (hstep.starts r hr hlt) (by omega))

/-- The assembler puts every statement where it was read. -/
theorem place_tile {lo hi : ℕ} {ls : List Line} (h : Tile Line.off Line.size lo hi ls)
    (hal : ∀ l ∈ ls, l.off % l.stmt.align = 0) : place lo (ls.map Line.stmt) = ls.map fun l => (l.off, l.stmt) := by
  induction ls generalizing lo with
  | nil => rfl
  | cons l ls ih =>
    obtain ⟨hoff, -, hrest⟩ := h
    have hpos : 0 < l.stmt.align := by
      cases l.stmt with
      | dcAddr c =>
        rw [Stmt.align]
        split_ifs <;> decide
      | ds => exact Nat.one_pos
      | dcHex => exact Nat.one_pos
      | insn => exact Nat.two_pos
    have hup : alignUp lo l.stmt.align = l.off := by
      rw [← hoff]
      exact alignUp_eq hpos (hal l List.mem_cons_self)
    rw [List.map_cons, place, hup, List.map_cons, hoff]
    exact congrArg _ (ih hrest fun x hx => hal x (List.mem_cons_of_mem _ hx))

end Run

/-- The RLD items filed under a section. -/
def filed (deck : List Buffer) (s : Sect) : List Rld := (deckRld deck).filter fun it => it.p = s.esdid

/-- An item as the disassembler keeps it. -/
def itemOf (s : Sect) (it : Rld) : RldItem := ⟨it.addr - s.org, it.len, it.r⟩

/-- The relocatable fields of a section, as its deck has them. -/
structure DeckFields (deck : List Buffer) (s : Sect) : Prop where
  inside : ∀ it ∈ filed deck s, s.org ≤ it.addr ∧ it.addr - s.org + it.len ≤ s.len
  cov : ∀ it ∈ filed deck s, ∀ b, it.addr - s.org ≤ b → b < it.addr - s.org + it.len → s.cov b = true
  apart : (filed deck s).Pairwise fun x y => x.addr + x.len ≤ y.addr ∨ y.addr + y.len ≤ x.addr

section Deck

variable {deck : List Buffer} {want : Option (List Char)} {s : Sect}

theorem loadSection_rld (h : loadSection deck want = some s) :
    s.rld = (((filed deck s).filter fun it => s.org ≤ it.addr ∧ it.addr - s.org < s.len).map (itemOf s)).take maxRld := by
  rw [loadSection] at h
  obtain ⟨first, -, h⟩ := Option.bind_eq_some_iff.mp h
  obtain ⟨e, -, h⟩ := Option.bind_eq_some_iff.mp h
  split_ifs at h
  obtain rfl := Option.some.inj h
  dsimp only [filed, itemOf, rldOf]
  rw [List.filter_filter]
  congr 2
  apply List.filter_congr
  intro it _
  simp only [Bool.decide_and, Bool.and_comm]

theorem rld_len_pos (it : Rld) : 0 < it.len := by
  rw [Rld.len]
  omega

theorem DeckFields.rld (hd : DeckFields deck s) (h : loadSection deck want = some s) (hcount : (filed deck s).length ≤ maxRld) :
    s.rld = (filed deck s).map (itemOf s) := by
  rw [loadSection_rld h, List.filter_eq_self.mpr, List.take_of_length_le (by rwa [List.length_map])]
  intro it hit
  obtain ⟨h1, h2⟩ := hd.inside it hit
  have := rld_len_pos it
  simp only [decide_eq_true_eq]
  omega

theorem DeckFields.fieldsOk (hd : DeckFields deck s) (h : loadSection deck want = some s)
    (hcount : (filed deck s).length ≤ maxRld) : FieldsOk s := by
  have hrld := hd.rld h hcount
  have hmem : ∀ r ∈ s.rld, ∃ it ∈ filed deck s, itemOf s it = r := by
    intro r hr
    rw [hrld] at hr
    exact List.mem_map.mp hr
  refine ⟨?_, ?_, ?_, ?_⟩
  · intro r hr
    obtain ⟨it, -, rfl⟩ := hmem r hr
    exact rld_len_pos it
  · intro r hr
    obtain ⟨it, hit, rfl⟩ := hmem r hr
    exact (hd.inside it hit).2
  · intro r hr
    obtain ⟨it, hit, rfl⟩ := hmem r hr
    exact hd.cov it hit
  · rw [hrld, List.pairwise_map]
    refine hd.apart.imp_of_mem fun {x y} hx hy hxy => ?_
    have h1 := (hd.inside x hx).1
    have h2 := (hd.inside y hy).1
    dsimp only [itemOf]
    omega

end Deck

/-- Section A of four bytes at X'8', an address constant for an unnamed section at X'0'. -/
def privateDeck : List Buffer := [
  ofBytes ([0x02, 0xC5, 0xE2, 0xC4, 0x40, 0x40, 0x40, 0x40, 0x40, 0x40, 0, 32, 0x40, 0x40, 0, 1] ++
    List.replicate 8 0x40 ++ [0x04, 0, 0, 0, 0x40, 0, 0, 4] ++
    0xC1 :: List.replicate 7 0x40 ++ [0x00, 0, 0, 8, 0x40, 0, 0, 4]),
  ofBytes [0x02, 0xE3, 0xE7, 0xE3, 0x40, 0, 0, 8, 0x40, 0x40, 0, 4, 0x40, 0x40, 0, 2, 0, 0, 0, 0],
  ofBytes [0x02, 0xD9, 0xD3, 0xC4, 0x40, 0x40, 0x40, 0x40, 0x40, 0x40, 0, 8, 0x40, 0x40, 0x40, 0x40, 0, 1, 0, 2, 0x0C, 0, 0, 8]]

def privateSect : Sect := (loadSection privateDeck (some ['A'])).getD ⟨0, 0, 0, [], fun _ => 0, fun _ => false, [], fun _ => [], fun _ => false, fun _ => 0, [], none⟩

theorem privateDeck_loads : loadSection privateDeck (some ['A']) = some privateSect := by
  have hsome : (loadSection privateDeck (some ['A'])).isSome = true := by decide
  obtain ⟨s, hs⟩ := Option.isSome_iff_exists.mp hsome
  rw [privateSect, hs]
  rfl

theorem privateDeck_filed : filed privateDeck privateSect = [⟨1, 2, 0x0C, 8⟩] := by decide

theorem privateDeck_fields : DeckFields privateDeck privateSect := by
  refine ⟨?_, ?_, ?_⟩
  · rw [privateDeck_filed]
    decide
  · rw [privateDeck_filed]
    intro it hit b h1 h2
    obtain rfl := List.mem_singleton.mp hit
    have hb : b < 4 := by
      have : b < 8 - 8 + 4 := h2
      omega
    have hall : ∀ b < 4, privateSect.cov b = true := by decide
    exact hall b hb
  · rw [privateDeck_filed]
    exact List.pairwise_singleton _ _

end Cc370.Dasm370
