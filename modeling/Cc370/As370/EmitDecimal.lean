import Mathlib.Data.Nat.Digits.Defs
import Mathlib.Data.List.GetD
import Mathlib.Algebra.Order.Ring.Nat
import Mathlib.Algebra.Order.Ring.Int
import Mathlib.Tactic.IntervalCases

/-! Packed and zoned decimal constants. -/

namespace Cc370.As370

/-- Why a decimal constant is rejected. -/
inductive DecError
  | points | character | noValue | digits | length
deriving DecidableEq

def DecError.note (packed : Bool) : DecError → String
  | points => "Syntax error - more than one decimal point in a decimal constant (IFOX00 IFO178)"
  | character => "Illegal character in a decimal constant (IFOX00 IFO236)"
  | noValue => "Syntax error - decimal constant has no nominal value (IFOX00 IFO178)"
  | digits =>
    if packed then "Length error - a packed-decimal constant may have at most 31 digits (IFOX00 IFO224)"
    else "Length error - a zoned-decimal constant may have at most 16 digits (IFOX00 IFO224)"
  | length => "Length error - a packed- or zoned-decimal constant may not exceed 16 bytes (IFOX00 IFO224)"

/-- The sign, and what follows it. -/
def decSign : List Char → Bool × List Char
  | [] => (false, [])
  | c :: cs => if c = '+' then (false, cs) else if c = '-' then (true, cs) else (false, c :: cs)

def decScan : List Char → Bool → Except DecError (List ℕ)
  | [], _ => .ok []
  | c :: cs, dot =>
    if '0' ≤ c ∧ c ≤ '9' then (decScan cs dot).map fun ds => (c.toNat - 48) :: ds
    else if c = '.' then if dot then .error .points else decScan cs true
    else .error .character

def decLen (packed : Bool) (nd want : ℕ) : ℕ := if want ≠ 0 then want else if packed then (nd + 2) / 2 else nd

def signNibble (neg : Bool) : ℕ := if neg then 0x0D else 0x0C

/-- The nibbles of the value from the right, the sign first. -/
def packedNibble (neg : Bool) (dig : List ℕ) (k : ℕ) : ℕ :=
  if k = 0 then signNibble neg else if k ≤ dig.length then dig.getD (dig.length - k) 0 else 0

def packedBytes (neg : Bool) (dig : List ℕ) (len : ℕ) : List UInt8 :=
  (List.range len).map fun i =>
    .ofNat (packedNibble neg dig (2 * (len - 1 - i) + 1) * 16 + packedNibble neg dig (2 * (len - 1 - i)))

def zonedBytes (neg : Bool) (dig : List ℕ) (len : ℕ) : List UInt8 :=
  (List.range len).map fun k =>
    let v := if len ≤ dig.length + k then 0xF0 + dig.getD (dig.length + k - len) 0 else 0xF0
    .ofNat (if k = len - 1 then v % 16 + signNibble neg * 16 else v)

/-- `emit_decimal`: the bytes of one constant, `want` of them or as many as its digits need. -/
def emitDecimal (packed : Bool) (txt : List Char) (want : ℕ) : Except DecError (List UInt8) :=
  let (neg, body) := decSign txt
  match decScan body false with
  | .error e => .error e
  | .ok dig =>
    if dig = [] then .error .noValue
    else if (if packed then 31 else 16) < dig.length then .error .digits
    else
      let len := decLen packed dig.length want
      if 16 < len then .error .length
      else .ok (if packed then packedBytes neg dig len else zonedBytes neg dig len)

section Reading

def signed (neg : Bool) (n : ℕ) : ℤ := if neg then -n else n

/-- The number that decimal instructions find in a packed field: digits from the right behind the sign. -/
def readPacked (bs : List UInt8) : Option ℤ :=
  match bs.reverse.flatMap fun b => [b.toNat % 16, b.toNat / 16] with
  | [] => none
  | s :: ds =>
    if ds.all (· < 10) ∧ (s = 0x0C ∨ s = 0x0D) then some (signed (s = 0x0D) (Nat.ofDigits 10 ds)) else none

/-- The number of a zoned field; the zone of its last byte is the sign. -/
def readZoned (bs : List UInt8) : Option ℤ :=
  match bs.reverse with
  | [] => none
  | b :: rest =>
    let ds := (b :: rest).map fun c => c.toNat % 16
    if ds.all (· < 10) ∧ (rest.all fun c => c.toNat / 16 = 0x0F) ∧ (b.toNat / 16 = 0x0C ∨ b.toNat / 16 = 0x0D) then
      some (signed (b.toNat / 16 = 0x0D) (Nat.ofDigits 10 ds))
    else none

end Reading

section Grammar

variable {body : List Char} {dot : Bool} {ds : List ℕ} {neg : Bool} {txt : List Char}

/-- A decimal constant: a sign or none, and digits among which one point may stand. -/
structure DecText (txt : List Char) (neg : Bool) (ds : List ℕ) : Prop where
  parts : ∃ sign body, txt = sign ++ body ∧ (neg = false ∧ (sign = [] ∨ sign = ['+']) ∨ neg = true ∧ sign = ['-']) ∧
    body.countP (· = '.') ≤ 1 ∧ body.filter (· ≠ '.') = ds.map Nat.digitChar
  digits : ∀ d ∈ ds, d < 10

theorem digit_range {c : Char} (h : '0' ≤ c ∧ c ≤ '9') : c.toNat - 48 < 10 ∧ Nat.digitChar (c.toNat - 48) = c ∧ c ≠ '.' ∧ c ≠ '+' ∧ c ≠ '-' := by
  have hlow : 48 ≤ c.toNat := h.1
  have hhigh : c.toNat ≤ 57 := h.2
  have hc : c = Char.ofNat c.toNat := (Char.ofNat_toNat c).symm
  refine ⟨by omega, ?_⟩
  generalize c.toNat = n at hlow hhigh hc
  subst hc
  interval_cases n <;> decide

theorem digitChar_range {d : ℕ} (h : d < 10) : '0' ≤ Nat.digitChar d ∧ Nat.digitChar d ≤ '9' ∧ (Nat.digitChar d).toNat - 48 = d := by
  interval_cases d <;> decide

theorem decScan_ok (body : List Char) : ∀ (dot : Bool) {ds : List ℕ}, decScan body dot = .ok ds ↔
    (body.countP (· = '.') + if dot then 1 else 0) ≤ 1 ∧ body.filter (· ≠ '.') = ds.map Nat.digitChar ∧ ∀ d ∈ ds, d < 10 := by
  induction body with
  | nil =>
    intro dot ds
    rw [decScan, Except.ok.injEq]
    constructor
    · rintro rfl
      exact ⟨by split <;> simp, rfl, by simp⟩
    · rintro ⟨-, h, -⟩
      exact (List.map_eq_nil_iff.mp h.symm).symm
  | cons c cs ih =>
    intro dot ds
    rw [decScan]
    split
    · next hc =>
      obtain ⟨hlt, hchar, hpoint, -⟩ := digit_range hc
      rw [List.countP_cons_of_neg (by simpa using hpoint), List.filter_cons_of_pos (by simpa using hpoint)]
      constructor
      · intro h
        obtain ⟨es, hes, rfl⟩ : ∃ es, decScan cs dot = .ok es ∧ (c.toNat - 48) :: es = ds := by
          cases hes : decScan cs dot with
          | error e =>
            rw [hes] at h
            cases h
          | ok es =>
            rw [hes] at h
            exact ⟨es, rfl, Except.ok.inj h⟩
        obtain ⟨hcount, hfilter, hall⟩ := (ih dot).mp hes
        refine ⟨hcount, ?_, ?_⟩
        · rw [hfilter, List.map_cons, hchar]
        · exact List.forall_mem_cons.mpr ⟨hlt, hall⟩
      · rintro ⟨hcount, hfilter, hall⟩
        cases ds with
        | nil => cases hfilter
        | cons d es =>
          rw [List.map_cons] at hfilter
          obtain ⟨hd, hes⟩ := List.cons.inj hfilter
          obtain ⟨hdlt, hall⟩ := List.forall_mem_cons.mp hall
          have hok := (ih dot).mpr ⟨hcount, hes, hall⟩
          rw [hok, hd]
          exact congrArg Except.ok (congrArg (· :: es) (digitChar_range hdlt).2.2)
    · next hc =>
      by_cases hpoint : c = '.'
      · subst hpoint
        rw [if_pos rfl, List.countP_cons_of_pos (by simp), List.filter_cons_of_neg (by simp)]
        cases dot with
        | true => simp
        | false =>
          simp only [Bool.false_eq_true, ↓reduceIte, add_zero]
          exact ih true
      · rw [if_neg hpoint, List.filter_cons_of_pos (by simpa using hpoint)]
        simp only [reduceCtorEq, false_iff]
        rintro ⟨-, hfilter, hall⟩
        cases ds with
        | nil => cases hfilter
        | cons d es =>
          rw [List.map_cons] at hfilter
          obtain ⟨hlow, hhigh, -⟩ := digitChar_range (hall d List.mem_cons_self)
          rw [(List.cons.inj hfilter).1] at hc
          exact hc ⟨hlow, hhigh⟩

theorem decSign_cases (txt : List Char) : ∃ sign, txt = sign ++ (decSign txt).2 ∧
    ((decSign txt).1 = false ∧ (sign = [] ∧ (∀ c ∈ txt.head?, c ≠ '+' ∧ c ≠ '-') ∨ sign = ['+']) ∨ (decSign txt).1 = true ∧ sign = ['-']) := by
  cases txt with
  | nil => exact ⟨[], rfl, .inl ⟨rfl, .inl ⟨rfl, by simp⟩⟩⟩
  | cons c cs =>
    by_cases hplus : c = '+'
    · subst hplus
      exact ⟨['+'], rfl, .inl ⟨rfl, .inr rfl⟩⟩
    · by_cases hminus : c = '-'
      · subst hminus
        exact ⟨['-'], rfl, .inr ⟨rfl, rfl⟩⟩
      · rw [decSign, if_neg hplus, if_neg hminus]
        exact ⟨[], rfl, .inl ⟨rfl, .inl ⟨rfl, by simp [hplus, hminus]⟩⟩⟩

/-- A body of digits and points begins with no sign. -/
theorem body_unsigned (h : body.filter (· ≠ '.') = ds.map Nat.digitChar) (hds : ∀ d ∈ ds, d < 10) : decSign body = (false, body) := by
  cases body with
  | nil => rfl
  | cons c cs =>
    have hne : c ≠ '+' ∧ c ≠ '-' := by
      by_cases hpoint : c = '.'
      · subst hpoint
        decide
      · rw [List.filter_cons_of_pos (by simpa using hpoint)] at h
        cases ds with
        | nil => cases h
        | cons d es =>
          rw [List.map_cons] at h
          obtain ⟨hlow, hhigh, -⟩ := digitChar_range (hds d List.mem_cons_self)
          rw [(List.cons.inj h).1]
          exact (digit_range ⟨hlow, hhigh⟩).2.2.2
    rw [decSign, if_neg hne.1, if_neg hne.2]

/-- The scan accepts the constants of the grammar, and no other text. -/
theorem decText_iff : DecText txt neg ds ↔ (decSign txt).1 = neg ∧ decScan (decSign txt).2 false = .ok ds := by
  constructor
  · rintro ⟨⟨sign, body, rfl, hsign, hcount, hfilter⟩, hall⟩
    have hscan := (decScan_ok body false).mpr ⟨by simpa using hcount, hfilter, hall⟩
    obtain ⟨rfl, rfl | rfl⟩ | ⟨rfl, rfl⟩ := hsign
    · rw [List.nil_append, body_unsigned hfilter hall]
      exact ⟨rfl, hscan⟩
    · exact ⟨rfl, hscan⟩
    · exact ⟨rfl, hscan⟩
  · rintro ⟨rfl, hscan⟩
    obtain ⟨hcount, hfilter, hall⟩ := (decScan_ok _ _).mp hscan
    obtain ⟨sign, htxt, hsign⟩ := decSign_cases txt
    refine ⟨⟨sign, (decSign txt).2, htxt, ?_, by simpa using hcount, hfilter⟩, hall⟩
    exact hsign.imp_left fun h => ⟨h.1, h.2.imp_left And.left⟩

end Grammar

section Values

variable {neg : Bool} {dig : List ℕ} {len k : ℕ}

/-- So many digits from the right, filled up with zeros. -/
def lowDigits (dig : List ℕ) (m : ℕ) : List ℕ := (List.range m).map fun k => dig.reverse.getD k 0

theorem lowDigits_lt (h : ∀ d ∈ dig, d < 10) (m : ℕ) : ∀ d ∈ lowDigits dig m, d < 10 := by
  intro d hd
  obtain ⟨k, -, rfl⟩ := List.mem_map.mp hd
  by_cases hk : k < dig.reverse.length
  · rw [List.getD_eq_getElem _ _ hk]
    exact h _ (List.mem_reverse.mp (List.getElem_mem hk))
  · rw [List.getD_eq_default _ _ (by omega)]
    decide

/-- They are the value without what does not fit. -/
theorem ofDigits_lowDigits (h : ∀ d ∈ dig, d < 10) (m : ℕ) : Nat.ofDigits 10 (lowDigits dig m) = Nat.ofDigits 10 dig.reverse % 10 ^ m := by
  have hsplit : lowDigits dig m = dig.reverse.take m ++ List.replicate (m - dig.reverse.length) 0 := by
    apply List.ext_getElem
    · rw [lowDigits, List.length_map, List.length_range, List.length_append, List.length_take, List.length_replicate]
      omega
    · intro k hk hk'
      have hkm : k < m := by simpa [lowDigits] using hk
      simp only [lowDigits, List.getElem_map, List.getElem_range]
      by_cases hlt : k < dig.reverse.length
      · rw [List.getD_eq_getElem _ _ hlt, List.getElem_append_left (by rw [List.length_take]; omega), List.getElem_take]
      · rw [List.getD_eq_default _ _ (by omega), List.getElem_append_right (by rw [List.length_take]; omega), List.getElem_replicate]
  rw [hsplit, Nat.ofDigits_append_replicate_zero, Nat.ofDigits_mod_pow_eq_ofDigits_take _ (by decide)]
  exact fun d hd => h d (List.mem_reverse.mp hd)

theorem packedNibble_succ (neg : Bool) (dig : List ℕ) (k : ℕ) : packedNibble neg dig (k + 1) = dig.reverse.getD k 0 := by
  rw [packedNibble, if_neg (Nat.succ_ne_zero k)]
  split
  · next h =>
    have hk : k < dig.reverse.length := by rw [List.length_reverse]; omega
    rw [List.getD_eq_getElem _ _ hk, List.getElem_reverse, List.getD_eq_getElem _ _ (by omega)]
    congr 1
    omega
  · rw [List.getD_eq_default _ _ (by rw [List.length_reverse]; omega)]

variable (neg) in
theorem packedNibble_lt (h : ∀ d ∈ dig, d < 10) (k : ℕ) : packedNibble neg dig k < 16 := by
  cases k with
  | zero =>
    rw [packedNibble, if_pos rfl, signNibble]
    split <;> decide
  | succ k =>
    rw [packedNibble_succ]
    have hlt := lowDigits_lt h (k + 1) (dig.reverse.getD k 0) (List.mem_map.mpr ⟨k, List.mem_range.mpr (Nat.lt_succ_self k), rfl⟩)
    omega

theorem range_reverse_map {α : Type*} (f : ℕ → α) (n : ℕ) : ((List.range n).map f).reverse = (List.range n).map fun i => f (n - 1 - i) := by
  apply List.ext_getElem
  · simp
  · intro k hk hk'
    simp

theorem flatMap_pairs {α : Type*} (f : ℕ → α) (n : ℕ) : ((List.range n).flatMap fun i => [f (2 * i), f (2 * i + 1)]) = (List.range (2 * n)).map f := by
  induction n with
  | zero => rfl
  | succ n ih => rw [List.range_succ, List.flatMap_append, ih, show 2 * (n + 1) = 2 * n + 1 + 1 by omega, List.range_succ, List.range_succ]; simp

/-- What a packed constant holds: the value, or as many of its digits as fit. -/
theorem readPacked_packedBytes (h : ∀ d ∈ dig, d < 10) (hlen : 0 < len) :
    readPacked (packedBytes neg dig len) = some (signed neg (Nat.ofDigits 10 dig.reverse % 10 ^ (2 * len - 1))) := by
  have hnibbles : ((packedBytes neg dig len).reverse.flatMap fun b => [b.toNat % 16, b.toNat / 16]) = signNibble neg :: lowDigits dig (2 * len - 1) := by
    rw [packedBytes, range_reverse_map, List.flatMap_map]
    calc _ = (List.range len).flatMap fun i => [packedNibble neg dig (2 * i), packedNibble neg dig (2 * i + 1)] := by
          rw [List.flatMap_def, List.flatMap_def]
          refine congrArg _ (List.map_congr_left ?_)
          intro i hi
          have hi := List.mem_range.mp hi
          have hlow := packedNibble_lt neg h (2 * i)
          have hhigh := packedNibble_lt neg h (2 * i + 1)
          have hbyte : (packedNibble neg dig (2 * i + 1) * 16 + packedNibble neg dig (2 * i)) % 2 ^ 8 =
              packedNibble neg dig (2 * i + 1) * 16 + packedNibble neg dig (2 * i) := by
            apply Nat.mod_eq_of_lt
            omega
          rw [show len - 1 - (len - 1 - i) = i by omega, UInt8.toNat_ofNat', hbyte,
            show (packedNibble neg dig (2 * i + 1) * 16 + packedNibble neg dig (2 * i)) % 16 = packedNibble neg dig (2 * i) by omega,
            show (packedNibble neg dig (2 * i + 1) * 16 + packedNibble neg dig (2 * i)) / 16 = packedNibble neg dig (2 * i + 1) by omega]
      _ = (List.range (2 * len)).map (packedNibble neg dig) := flatMap_pairs _ _
      _ = _ := by
          rw [show 2 * len = 2 * len - 1 + 1 by omega, List.range_succ_eq_map, List.map_cons, List.map_map, Nat.add_sub_cancel]
          congr 1
          apply List.map_congr_left
          intro k _
          exact packedNibble_succ neg dig k
  have hall := lowDigits_lt h (2 * len - 1)
  unfold readPacked
  rw [hnibbles]
  dsimp only
  rw [if_pos ⟨by simpa using hall, by cases neg <;> simp [signNibble]⟩, ofDigits_lowDigits h]
  cases neg <;> rfl

theorem zonedByte {k : ℕ} (hk : k < len) :
    (if len ≤ dig.length + k then 0xF0 + dig.getD (dig.length + k - len) 0 else 0xF0) = 0xF0 + dig.reverse.getD (len - 1 - k) 0 := by
  split
  · next hle =>
    have hlt : len - 1 - k < dig.reverse.length := by rw [List.length_reverse]; omega
    rw [List.getD_eq_getElem _ _ hlt, List.getElem_reverse, List.getD_eq_getElem _ _ (by omega)]
    congr 2
    omega
  · rw [List.getD_eq_default _ _ (by rw [List.length_reverse]; omega)]

theorem readZoned_zonedBytes (h : ∀ d ∈ dig, d < 10) (hlen : 0 < len) :
    readZoned (zonedBytes neg dig len) = some (signed neg (Nat.ofDigits 10 dig.reverse % 10 ^ len)) := by
  have hdigit (k : ℕ) (hk : k < len) : dig.reverse.getD k 0 < 10 :=
    lowDigits_lt h (k + 1) _ (List.mem_map.mpr ⟨k, List.mem_range.mpr (Nat.lt_succ_self k), rfl⟩)
  obtain ⟨n, rfl⟩ : ∃ n, len = n + 1 := ⟨len - 1, by omega⟩
  have hbytes : (zonedBytes neg dig (n + 1)).reverse = .ofNat (dig.reverse.getD 0 0 + signNibble neg * 16) ::
      (List.range n).map fun k => .ofNat (0xF0 + dig.reverse.getD (k + 1) 0) := by
    rw [zonedBytes, range_reverse_map, List.range_succ_eq_map, List.map_cons, List.map_map]
    congr 1
    · rw [zonedByte (by omega)]
      have h0 := hdigit 0 (by omega)
      simp only [Nat.add_sub_cancel, Nat.sub_zero, Nat.sub_self, ↓reduceIte]
      congr 2
      omega
    · apply List.map_congr_left
      intro k hk
      have hk := List.mem_range.mp hk
      simp only [Function.comp_apply]
      rw [zonedByte (by omega), if_neg (by omega), show n + 1 - 1 - (n + 1 - 1 - Nat.succ k) = k + 1 by omega]
  have hsign : signNibble neg = 0x0C ∨ signNibble neg = 0x0D := by cases neg <;> simp [signNibble]
  have hlast : (UInt8.ofNat (dig.reverse.getD 0 0 + signNibble neg * 16)).toNat = dig.reverse.getD 0 0 + signNibble neg * 16 := by
    have h0 := hdigit 0 (by omega)
    rw [UInt8.toNat_ofNat']
    omega
  have hrest (k : ℕ) (hk : k < n) : (UInt8.ofNat (0xF0 + dig.reverse.getD (k + 1) 0)).toNat = 0xF0 + dig.reverse.getD (k + 1) 0 := by
    have hk := hdigit (k + 1) (by omega)
    rw [UInt8.toNat_ofNat']
    omega
  have hdigits : ((zonedBytes neg dig (n + 1)).reverse.map fun c => c.toNat % 16) = lowDigits dig (n + 1) := by
    rw [hbytes, lowDigits, List.range_succ_eq_map, List.map_cons, List.map_cons, List.map_map, List.map_map, hlast]
    have h0 := hdigit 0 (by omega)
    congr 1
    · omega
    · apply List.map_congr_left
      intro k hk
      have hk := List.mem_range.mp hk
      have hd := hdigit (k + 1) (by omega)
      simp only [Function.comp_apply, hrest k hk, Nat.succ_eq_add_one]
      omega
  have hzone : (dig.reverse.getD 0 0 + signNibble neg * 16) / 16 = signNibble neg := by
    have h0 := hdigit 0 (by omega)
    omega
  have hall := lowDigits_lt h (n + 1)
  rw [← hdigits, hbytes] at hall
  have hvalue := ofDigits_lowDigits h (n + 1)
  rw [← hdigits, hbytes] at hvalue
  unfold readZoned
  rw [hbytes]
  dsimp only
  rw [hvalue, hlast, hzone, if_pos]
  · cases neg <;> rfl
  · refine ⟨by simpa using hall, ?_, hsign⟩
    apply List.all_eq_true.mpr
    intro c hc
    apply decide_eq_true
    obtain ⟨k, hk, rfl⟩ := List.mem_map.mp hc
    have hk := List.mem_range.mp hk
    have hd := hdigit (k + 1) (by omega)
    rw [hrest k hk]
    omega

end Values

section Constants

/-- The digits that a decimal field of this length holds. -/
def decWidth (packed : Bool) (len : ℕ) : ℕ := if packed then 2 * len - 1 else len

def readDecimal (packed : Bool) (bs : List UInt8) : Option ℤ := if packed then readPacked bs else readZoned bs

/-- A constant that the assembler takes: its text, its digits and its length are in order. -/
structure DecConst (packed : Bool) (txt : List Char) (want : ℕ) (neg : Bool) (ds : List ℕ) : Prop where
  text : DecText txt neg ds
  some_digit : ds ≠ []
  digits : ds.length ≤ if packed then 31 else 16
  length : decLen packed ds.length want ≤ 16

theorem decLen_pos {packed : Bool} {n want : ℕ} (h : 0 < n) : 0 < decLen packed n want := by
  unfold decLen
  split
  · omega
  · split <;> omega

/-- Left to itself the length has room for every digit. -/
theorem decWidth_decLen (packed : Bool) (n : ℕ) : n ≤ decWidth packed (decLen packed n 0) := by
  cases packed
  · exact le_refl n
  · show n ≤ 2 * ((n + 2) / 2) - 1
    omega

theorem emitDecimal_ok {packed : Bool} {txt : List Char} {want : ℕ} {bs : List UInt8} : emitDecimal packed txt want = .ok bs ↔
    ∃ neg ds, DecConst packed txt want neg ds ∧
      bs = if packed then packedBytes neg ds (decLen packed ds.length want) else zonedBytes neg ds (decLen packed ds.length want) := by
  unfold emitDecimal
  constructor
  · intro h
    dsimp only at h
    cases hscan : decScan (decSign txt).2 false with
    | error e =>
      rw [hscan] at h
      cases h
    | ok ds =>
      rw [hscan] at h
      dsimp only at h
      by_cases hne : ds = []
      · rw [if_pos hne] at h
        cases h
      rw [if_neg hne] at h
      by_cases hdigits : (if packed then 31 else 16) < ds.length
      · rw [if_pos hdigits] at h
        cases h
      rw [if_neg hdigits] at h
      by_cases hlen : 16 < decLen packed ds.length want
      · rw [if_pos hlen] at h
        cases h
      rw [if_neg hlen] at h
      exact ⟨_, ds, ⟨decText_iff.mpr ⟨rfl, hscan⟩, hne, not_lt.mp hdigits, not_lt.mp hlen⟩, (Except.ok.inj h).symm⟩
  · rintro ⟨neg, ds, ⟨htext, hne, hdigits, hlen⟩, rfl⟩
    obtain ⟨rfl, hscan⟩ := decText_iff.mp htext
    dsimp only
    rw [hscan]
    dsimp only
    rw [if_neg hne, if_neg (not_lt.mpr hdigits), if_neg (not_lt.mpr hlen)]

/-- A decimal constant is taken when it is in order and then holds its value, of which no digit is lost where the
    length is implied; any other is refused. -/
theorem decimal_constants (packed : Bool) (txt : List Char) (want : ℕ) :
    (∀ neg ds, DecConst packed txt want neg ds → ∃ bs, emitDecimal packed txt want = .ok bs ∧ bs.length = decLen packed ds.length want ∧
      readDecimal packed bs = some (signed neg (Nat.ofDigits 10 ds.reverse % 10 ^ decWidth packed bs.length)) ∧
      (want = 0 → readDecimal packed bs = some (signed neg (Nat.ofDigits 10 ds.reverse)))) ∧
    ((∃ e, emitDecimal packed txt want = .error e) ↔ ¬∃ neg ds, DecConst packed txt want neg ds) := by
  constructor
  · intro neg ds h
    have hpos : 0 < decLen packed ds.length want := decLen_pos (List.length_pos_iff.mpr h.some_digit)
    refine ⟨_, emitDecimal_ok.mpr ⟨neg, ds, h, rfl⟩, ?_⟩
    have hlen : (if packed then packedBytes neg ds (decLen packed ds.length want) else zonedBytes neg ds (decLen packed ds.length want)).length =
        decLen packed ds.length want := by
      cases packed <;> simp [packedBytes, zonedBytes]
    have hread : readDecimal packed (if packed then packedBytes neg ds (decLen packed ds.length want) else zonedBytes neg ds (decLen packed ds.length want)) =
        some (signed neg (Nat.ofDigits 10 ds.reverse % 10 ^ decWidth packed (decLen packed ds.length want))) := by
      cases packed
      · exact readZoned_zonedBytes h.text.digits hpos
      · exact readPacked_packedBytes h.text.digits hpos
    refine ⟨hlen, by rw [hlen]; exact hread, ?_⟩
    rintro rfl
    rw [hread, Nat.mod_eq_of_lt]
    calc Nat.ofDigits 10 ds.reverse < 10 ^ ds.reverse.length :=
          Nat.ofDigits_lt_base_pow_length (by decide) fun d hd => h.text.digits d (List.mem_reverse.mp hd)
      _ ≤ 10 ^ decWidth packed (decLen packed ds.length 0) := by
          rw [List.length_reverse]
          exact Nat.pow_le_pow_right (by decide) (decWidth_decLen packed ds.length)
  · constructor
    · rintro ⟨e, he⟩ ⟨neg, ds, h⟩
      rw [emitDecimal_ok.mpr ⟨neg, ds, h, rfl⟩] at he
      cases he
    · intro hnone
      cases hemit : emitDecimal packed txt want with
      | error e => exact ⟨e, rfl⟩
      | ok bs =>
        obtain ⟨neg, ds, h, -⟩ := emitDecimal_ok.mp hemit
        exact absurd ⟨neg, ds, h⟩ hnone

end Constants

example : emitDecimal true "-1.23".toList 0 = .ok [0x12, 0x3D] ∧ readDecimal true [0x12, 0x3D] = some (-123) := by decide

example : emitDecimal false "1234".toList 3 = .ok [0xF2, 0xF3, 0xC4] := by decide

end Cc370.As370
