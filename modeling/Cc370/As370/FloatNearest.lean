import Cc370.As370.FloatRounding

namespace Cc370.As370.Hfp

variable {s : Halves} {h : Float}

/-- Dropping hexadecimal digits from the whole fraction. -/
theorem hfpScale_spec (hlo : h.lo < 2 ^ s.lofrac) (hfrac : h.frac s < 2 ^ (s.fracbits + s.lofrac)) (k : ℕ) :
    (hfpScale s k h).1.frac s = h.frac s / 16 ^ k ∧ (hfpScale s k h).1.lo < 2 ^ s.lofrac ∧ (hfpScale s k h).1.exp = h.exp + k ∧
      (hfpScale s k h).1.lost = h.lost ∧ ∀ n ∈ (hfpScale s k h).2, n = 202 := by
  have hwhole : h.hi <<< s.lofrac ||| h.lo = h.frac s := by
    rw [← Nat.shiftLeft_add_eq_or_of_lt hlo, Nat.shiftLeft_eq]
    rfl
  have hpow : 2 ^ (4 * k) = 16 ^ k := by
    rw [pow_mul]
    rfl
  have hshift : (if s.fracbits + s.lofrac ≤ 4 * k then 0 else h.frac s >>> (4 * k)) = h.frac s / 16 ^ k := by
    rw [Nat.shiftRight_eq_div_pow, hpow]
    split
    · rename_i hout
      have hle : 2 ^ (s.fracbits + s.lofrac) ≤ 16 ^ k := by
        rw [← hpow]
        exact Nat.pow_le_pow_right (by decide) hout
      exact (Nat.div_eq_of_lt (hfrac.trans_le hle)).symm
    · rfl
  have hlow : (if s.lofrac ≠ 0 then h.frac s / 16 ^ k &&& (1 <<< s.lofrac - 1) else 0) = h.frac s / 16 ^ k % 2 ^ s.lofrac := by
    split
    · rw [Nat.one_shiftLeft, Nat.and_two_pow_sub_one_eq_mod]
    · rename_i hnone
      rw [not_not.mp hnone, pow_zero, Nat.mod_one]
  rw [hfpScale]
  dsimp only
  rw [hwhole, hshift, hlow, Float.frac]
  dsimp only
  refine ⟨?_, Nat.mod_lt _ (by positivity), rfl, rfl, ?_⟩
  · rw [Nat.shiftRight_eq_div_pow, Nat.div_add_mod']
  · intro n hn
    split at hn <;> simp_all

/-- The scale modifier, where there is one. -/
def scaled (s : Halves) (scale : ℤ) (h : Float) : Float × List ℕ := if 0 < scale then hfpScale s scale.toNat h else (h, [])

theorem scaled_spec (hlo : h.lo < 2 ^ s.lofrac) (hfrac : h.frac s < 2 ^ (s.fracbits + s.lofrac)) {k : ℤ} (hk : 0 ≤ k) :
    (scaled s k h).1.frac s = h.frac s / 16 ^ k.toNat ∧ (scaled s k h).1.lo < 2 ^ s.lofrac ∧ (scaled s k h).1.exp = h.exp + k ∧
      (scaled s k h).1.lost = h.lost ∧ ∀ n ∈ (scaled s k h).2, n = 202 := by
  rw [scaled]
  split
  · have hspec := hfpScale_spec hlo hfrac k.toNat
    rwa [Int.toNat_of_nonneg hk] at hspec
  · have hzero : k = 0 := by omega
    rw [hzero]
    simp [hlo]

/-- The end of the conversion: the characteristic is looked at, and the halves are put. -/
def finish (bytes : ℕ) (sign : Bool) (codes : List ℕ) (r : Float × List ℕ) : Emitted :=
  if r.1.exp < 0 ∨ 127 < r.1.exp then ⟨List.replicate bytes 0, codes ++ r.2 ++ [239], r.1.lost⟩
  else ⟨hfpPut (halves bytes) sign r.1, codes ++ r.2, r.1.lost⟩

/-- The low bytes of a number, the greatest first. -/
def bytesOf (n v : ℕ) : List ℕ := (List.range n).map fun i => v / 256 ^ (n - (i + 1)) % 256

/-- A half as the machine has it: sign, characteristic and fraction. -/
def half (sign : Bool) (characteristic : ℤ) (n frac : ℕ) : List ℕ :=
  ((if sign then 128 else 0) + (characteristic % 128).toNat) :: bytesOf n frac

/-- The bits of fraction in a constant of that length. -/
def precision (bytes : ℕ) : ℕ := if bytes ≤ 8 then 8 * (bytes - 1) else 56 + 8 * (bytes - 9)

/-- A constant as the machine has it. -/
def image (bytes : ℕ) (sign : Bool) (characteristic : ℤ) (frac : ℕ) : List ℕ :=
  if bytes ≤ 8 then half sign characteristic (bytes - 1) frac
  else half sign characteristic 7 (frac / 2 ^ (8 * (bytes - 9))) ++ half sign (characteristic - 14) (bytes - 9) (frac % 2 ^ (8 * (bytes - 9)))

theorem putHalf_eq (sign : Bool) (exp : ℤ) (n frac : ℕ) : putHalf sign exp n frac = half sign exp (n - 1) frac := by
  have hbyte (i : ℕ) : frac >>> (8 * (n - 1 - (i + 1))) &&& 0xff = frac / 256 ^ (n - 1 - (i + 1)) % 256 := by
    rw [Nat.shiftRight_eq_div_pow, pow_mul, show 0xff = 2 ^ 8 - 1 by norm_num, Nat.and_two_pow_sub_one_eq_mod]
    rfl
  have hsign : (if sign then 0x80 else 0) ||| (exp % 128).toNat = (if sign then 128 else 0) + (exp % 128).toNat := by
    have hlt : (exp % 128).toNat < 2 ^ 7 := by omega
    cases sign with
    | false => simp
    | true =>
      have hor := Nat.shiftLeft_add_eq_or_of_lt hlt 1
      exact hor.symm
  rw [putHalf, half, bytesOf, hsign]
  simp only [hbyte]

theorem halves_precision {bytes : ℕ} (h : bytes ≤ 16) : (halves bytes).fracbits + (halves bytes).lofrac = precision bytes := by
  unfold halves precision
  by_cases hext : 8 < bytes
  · simp only [hext, decide_true, if_true, if_neg (not_le.mpr hext)]
    omega
  · simp only [hext, decide_false, if_pos (not_lt.mp hext), Bool.false_eq_true, if_false]
    omega

theorem hfpPut_eq {bytes : ℕ} (hsize : bytes ≤ 16) (hlo : h.lo < 2 ^ (halves bytes).lofrac) (sign : Bool) :
    hfpPut (halves bytes) sign h = image bytes sign h.exp (h.frac (halves bytes)) := by
  rw [hfpPut, image, putHalf_eq, putHalf_eq]
  unfold Float.frac
  by_cases hext : 8 < bytes
  · have hlofrac : (halves bytes).lofrac = 8 * (bytes - 9) := by
      simp only [halves, hext, decide_true, if_true]
      omega
    have hhb : (halves bytes).hb = 8 := by simp [halves, hext]
    have hlb : (halves bytes).lb = bytes - 8 := by simp [halves, hext]
    have hflag : (halves bytes).ext = true := by simp [halves, hext]
    rw [hlofrac] at hlo ⊢
    rw [hhb, hlb, hflag, if_pos rfl, if_neg (not_le.mpr hext), Nat.mul_comm h.hi, Nat.mul_add_div (by positivity), Nat.div_eq_of_lt hlo,
      Nat.add_zero, Nat.mul_add_mod, Nat.mod_eq_of_lt hlo]
    rfl
  · have hlofrac : (halves bytes).lofrac = 0 := by simp [halves, hext]
    have hhb : (halves bytes).hb = bytes := by simp [halves, hext]
    have hflag : (halves bytes).ext = false := by simp [halves, hext]
    rw [hlofrac, pow_zero, Nat.lt_one_iff] at hlo
    rw [hlofrac, hhb, hflag, if_pos (not_lt.mp hext), hlo]
    simp

/-- The length and the modifiers of a floating-point constant. -/
structure FloatConstant where
  ty : Char
  bytes : ℕ
  scale : ℤ
  expo : ℤ
  kind : ty = 'E' ∨ ty = 'D' ∨ ty = 'L'
  sized : 2 ≤ bytes ∧ bytes ≤ 16
  accepted : dcModLimits ty scale expo = ((scale, expo), [])

namespace FloatConstant

variable (c : FloatConstant)

theorem modifiers : 0 ≤ c.scale ∧ -85 ≤ c.expo ∧ c.expo ≤ 75 := by
  have hkind : ¬ (c.ty = 'F' ∨ c.ty = 'H') := by
    rcases c.kind with hty | hty | hty <;> rw [hty] <;> decide
  have hmodifiers := congrArg Prod.snd c.accepted
  rw [dcModLimits, if_neg hkind, if_neg hkind] at hmodifiers
  generalize (if c.ty = 'L' then (28 : ℤ) else 14) = hi at hmodifiers
  dsimp only at hmodifiers
  by_cases hs : c.scale < 0 ∨ hi < c.scale
  · rw [if_pos hs] at hmodifiers
    simp at hmodifiers
  · by_cases he : c.expo < -85 ∨ 75 < c.expo
    · rw [if_pos he] at hmodifiers
      simp at hmodifiers
    · omega

end FloatConstant

/-- The exponents that a value may have. -/
def InRange (z : ℤ) : Prop := -85 ≤ z ∧ z ≤ 75

variable (t : Nominal) (c : FloatConstant)

def magnitude : ℚ := t.mantissa * 10 ^ (t.exponent + c.expo - t.places)

/-- The bytes are those of the nearest number, with digits dropped as the scale has it. -/
def Written (o : Emitted) : Prop :=
  if t.mantissa = 0 then o.bytes = List.replicate c.bytes 0
  else ∃ h : HexFloat, h.Nearest (precision c.bytes) (magnitude t c) ∧
    if 0 ≤ h.exp + 64 + c.scale ∧ h.exp + 64 + c.scale ≤ 127 then
      239 ∉ o.codes ∧ o.bytes = image c.bytes t.neg (h.exp + 64 + c.scale) (h.frac / 16 ^ c.scale.toNat)
    else 239 ∈ o.codes

/-- The constant is generated as the claim of the exponents and of the rounding has it. -/
def Converts : Prop :=
  ∃ o, emitFloat t.text c.bytes c.scale c.expo = some o ∧ o.lost = false ∧
    (201 ∈ o.codes ↔ ¬ InRange (t.exponent + c.expo)) ∧ (201 ∈ o.codes ∨ Written t c o)

variable {t c}

theorem digitsNat_lt (ds : List (Fin 10)) : digitsNat ds < 10 ^ ds.length := by
  induction ds with
  | nil => exact Nat.one_pos
  | cons d ds ih =>
    have hd : (d : ℕ) < 10 := d.isLt
    rw [digitsNat, List.foldl_cons, foldl_pushDigit, List.length_cons, pow_succ, pushDigit]
    nlinarith [Nat.pow_pos (n := ds.length) (by decide : 0 < 10)]

theorem text_length (t : Nominal) : t.digits.length ≤ t.text.length ∧ t.places ≤ t.digits.length := by
  rw [Nominal.digits, Nominal.places, Nominal.text, Nominal.fracText]
  cases t.frac <;> simp <;> omega

theorem mantissa_lt (h : t.text.length ≤ 255) : t.mantissa < 10 ^ 255 :=
  (digitsNat_lt t.digits).trans_le (Nat.pow_le_pow_right (by decide) ((text_length t).1.trans h))

theorem mantissa_fits (h : t.text.length ≤ 255) : t.mantissa < RADIX ^ BN_LIMBS := by
  rw [← LIMIT]
  exact lt_limit ((mantissa_lt h).trans (ten_pow_lt 3 (by decide))) (by decide)

theorem holds_nil_iff {a : Bn} {x : ℕ} (h : a.Holds x) : a.limbs = [] ↔ x = 0 := by
  rw [h.limbs]
  exact Nat.digits_eq_nil_iff_eq_zero

/-- The exponent and its modifier as the conversion takes them. -/
def taken (t : Nominal) (c : FloatConstant) : ℤ := wrap32 (t.exponent + c.expo)

theorem emitFloat_zero (h : t.text.length ≤ 255) (hzero : t.mantissa = 0) :
    emitFloat t.text c.bytes c.scale c.expo = some ⟨List.replicate c.bytes 0, [], false⟩ := by
  obtain ⟨m, hm, hparse⟩ := hfpParse_text t (mantissa_fits h)
  rw [emitFloat, hparse]
  dsimp only
  rw [if_pos ((holds_nil_iff hm).mpr hzero), hm.lost]
  rfl

/-- The value that the conversion develops: without exponents where they are out of range. -/
noncomputable def developed (t : Nominal) (c : FloatConstant) : ℚ :=
  t.mantissa * 10 ^ ((if taken t c < -85 ∨ 75 < taken t c then 0 else taken t c) - t.places)

theorem emitFloat_run (h : t.text.length ≤ 255) (hpos : 0 < t.mantissa) :
    ∃ o, emitFloat t.text c.bytes c.scale c.expo = some o ∧ o.lost = false ∧ (201 ∈ o.codes ↔ ¬ InRange (taken t c)) ∧
      ∃ g : HexFloat, g.Nearest (precision c.bytes) (developed t c) ∧
        if 0 ≤ g.exp + 64 + c.scale ∧ g.exp + 64 + c.scale ≤ 127 then
          239 ∉ o.codes ∧ o.bytes = image c.bytes t.neg (g.exp + 64 + c.scale) (g.frac / 16 ^ c.scale.toNat)
        else 239 ∈ o.codes := by
  obtain ⟨m, hm, hparse⟩ := hfpParse_text t (mantissa_fits h)
  have hplaces : t.places ≤ 255 := (text_length t).2.trans ((text_length t).1.trans h)
  have hs := halves_sized c.sized.1
  have hp := halves_precision c.sized.2
  have hprecision : 4 ≤ precision c.bytes := hp ▸ hs.fracbits.1.trans (Nat.le_add_right _ _)
  set used : ℤ := if taken t c < -85 ∨ 75 < taken t c then 0 else taken t c with hused
  have hbounds : -85 ≤ used ∧ used ≤ 75 := by
    rw [hused]
    split <;> omega
  obtain ⟨f, e, hconvert, hf⟩ := hfpConvert_spec (P := used - t.places) hm hpos (mantissa_lt h) (by omega) (by omega) hs
  have hnearest := HexFloat.rounded_nearest (p := precision c.bytes) hprecision hf.low hf.high
  have hfrac : f.frac (halves c.bytes) < 2 ^ ((halves c.bytes).fracbits + (halves c.bytes).lofrac) := by
    rw [hf.frac, hp]
    exact hnearest.normal.2
  have hexp := hf.exp
  have hdeveloped := hf.frac
  rw [hp] at hexp hdeveloped
  obtain ⟨hfrac', hlo', hexp', hlost', hcodes'⟩ := scaled_spec hf.lo hfrac c.modifiers.1
  have hrun : emitFloat t.text c.bytes c.scale c.expo = 
      some (finish c.bytes t.neg (if taken t c < -85 ∨ 75 < taken t c then [201] else []) (scaled (halves c.bytes) c.scale f)) := by
    rw [emitFloat, hparse]
    dsimp only
    rw [if_neg (mt (holds_nil_iff hm).mp hpos.ne'), wrap32_add, ← taken]
    simp only [decide_eq_true_eq]
    rw [← hused, hconvert, Option.bind_eq_bind, Option.bind_some, finish, ← scaled]
    split <;> rfl
  generalize scaled (halves c.bytes) c.scale f = r at *
  rw [hexp] at hexp'
  rw [hdeveloped] at hfrac'
  have hbad : (201 ∈ if taken t c < -85 ∨ 75 < taken t c then [201] else []) ↔ ¬ InRange (taken t c) := by
    rw [InRange]
    split <;> simp <;> omega
  have hscaleCodes {n : ℕ} (hn : n ≠ 202) : n ∉ r.2 := fun hmem => hn (hcodes' n hmem)
  refine ⟨_, hrun, ?_, ?_, _, hnearest, ?_⟩
  · rw [finish]
    split <;> exact hlost'.trans hf.lost
  · rw [finish, ← hbad]
    split <;> simp [hscaleCodes]
  · rw [finish, ← hexp']
    by_cases hfits : 0 ≤ r.1.exp ∧ r.1.exp ≤ 127
    · rw [if_pos hfits, if_neg (by omega)]
      refine ⟨?_, ?_⟩
      · rw [List.mem_append, not_or]
        refine ⟨?_, hscaleCodes (by decide)⟩
        split <;> simp
      · rw [← hfrac', ← hfpPut_eq c.sized.2 hlo']
    · rw [if_neg hfits, if_pos (by omega)]
      simp

theorem taken_of_inRange (h : InRange (t.exponent + c.expo)) : taken t c = t.exponent + c.expo := by
  obtain ⟨hlow, hhigh⟩ := h
  exact wrap32_small (by omega)

theorem developed_of_inRange (h : InRange (t.exponent + c.expo)) : developed t c = magnitude t c := by
  obtain ⟨hlow, hhigh⟩ := h
  rw [developed, taken_of_inRange ⟨hlow, hhigh⟩, if_neg (by omega), magnitude]

/-- A constant is converted as it should be unless an exponent out of range goes by: in a zero, or wrapped round into the range. -/
theorem converts_iff (h : t.text.length ≤ 255) :
    Converts t c ↔ InRange (t.exponent + c.expo) ∨ (t.mantissa ≠ 0 ∧ ¬ InRange (taken t c)) := by
  by_cases hzero : t.mantissa = 0
  · have hrun := emitFloat_zero (c := c) h hzero
    constructor
    · rintro ⟨o, ho, -, hcodes, -⟩
      rw [hrun, Option.some.injEq] at ho
      rw [← ho] at hcodes
      refine Or.inl ?_
      by_contra hout
      exact absurd (hcodes.mpr hout) List.not_mem_nil
    · rintro (hin | ⟨hne, -⟩)
      · refine ⟨_, hrun, rfl, ?_, Or.inr ?_⟩
        · exact iff_of_false List.not_mem_nil (not_not.mpr hin)
        · rw [Written, if_pos hzero]
      · exact absurd hzero hne
  · obtain ⟨o, hrun, hlost, hcodes, hbytes⟩ := emitFloat_run (c := c) h (Nat.pos_of_ne_zero hzero)
    by_cases hin : InRange (t.exponent + c.expo)
    · refine iff_of_true ⟨o, hrun, hlost, ?_, Or.inr ?_⟩ (Or.inl hin)
      · rw [hcodes, taken_of_inRange hin]
      · rw [Written, if_neg hzero, ← developed_of_inRange hin]
        exact hbytes
    · constructor
      · rintro ⟨o', ho', -, hcodes', -⟩
        rw [hrun, Option.some.injEq] at ho'
        rw [← ho'] at hcodes'
        exact Or.inr ⟨hzero, hcodes.mp (hcodes'.mpr hin)⟩
      · rintro (hin' | ⟨-, hout⟩)
        · exact absurd hin' hin
        · exact ⟨o, hrun, hlost, iff_of_true (hcodes.mpr hout) hin, Or.inl (hcodes.mpr hout)⟩

/-- `E'1.5'` -/
def plainNumber : Nominal where
  sign := none
  int := [1]
  frac := some [5]
  expo := none

def plainFloat : FloatConstant where
  ty := 'E'
  bytes := 4
  scale := 0
  expo := 0
  kind := by decide
  sized := by decide
  accepted := by decide

theorem plain_converts_iff : Converts plainNumber plainFloat ↔
    InRange (plainNumber.exponent + plainFloat.expo) ∨ (plainNumber.mantissa ≠ 0 ∧ ¬ InRange (taken plainNumber plainFloat)) :=
  converts_iff (by decide)

/-- `E'1E4294967297'`, with an exponent of 2^32 + 1. -/
def wrappedNumber : Nominal where
  sign := none
  int := [1]
  frac := none
  expo := some ⟨false, none, [4, 2, 9, 4, 9, 6, 7, 2, 9, 7]⟩

/-- The exponent comes round to 1, and ten is what is generated, with no message. -/
theorem wrapped_not_converted : wrappedNumber.text.length ≤ 255 ∧ ¬ Converts wrappedNumber plainFloat := by
  refine ⟨by decide, ?_⟩
  rintro ⟨o, ho, -, hcodes, -⟩
  have hrun : emitFloat wrappedNumber.text 4 0 0 = some ⟨[0x41, 0xA0, 0, 0], [], false⟩ := by decide +kernel
  have hsame := Option.some.inj (hrun.symm.trans ho)
  rw [← hsame] at hcodes
  have hout : ¬ InRange (wrappedNumber.exponent + plainFloat.expo) := fun hin => absurd hin.2 (by decide)
  exact absurd (hcodes.mpr hout) List.not_mem_nil

end Cc370.As370.Hfp
