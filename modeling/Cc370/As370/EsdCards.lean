import Cc370.As370.Cards

namespace Cc370.As370

open Obj370

def ebcName (s : List UInt8) : Name := Vector.ofFn fun i : Fin 8 => ofBytes (cebc s 8) i

/-- The ESDIDs of a list run on from `first`, over the LDs, which have none. -/
def Numbered : ℕ → List EsdEnt → Prop
  | _, [] => True
  | first, e :: es => if e.role = .ld then Numbered first es else e.esdid = first ∧ Numbered (first + 1) es

def idCount (es : List EsdEnt) : ℕ := es.countP fun e => e.role ≠ .ld

theorem numberEsd_numbered (es : List (ℕ × EsdRole)) (id : ℕ) :
    Numbered (id + 1) (numberEsd es id) := by
  induction es generalizing id with
  | nil => trivial
  | cons e es ih =>
    obtain ⟨s, role⟩ := e
    rw [numberEsd]
    split_ifs with h
    · simp only [Numbered, h, ↓reduceIte]
      exact ih id
    · simp only [Numbered, h, ↓reduceIte, true_and]
      exact ih (id + 1)

theorem numbered_append (first : ℕ) (es fs : List EsdEnt) :
    Numbered first (es ++ fs) ↔ Numbered first es ∧ Numbered (first + idCount es) fs := by
  induction es generalizing first with
  | nil => simp [Numbered, idCount]
  | cons e es ih =>
    rw [List.cons_append]
    by_cases h : e.role = .ld
    · simp [Numbered, h, ih, idCount]
    · have hc : idCount (e :: es) = idCount es + 1 := by simp [idCount, h]
      simp [Numbered, h, ih, hc, and_assoc, add_assoc, add_comm]

theorem Numbered.filter {first : ℕ} {es : List EsdEnt} (h : Numbered first es) {p : EsdEnt → Bool}
    (hp : ∀ e ∈ es, e.role ≠ .ld → p e = true) : Numbered first (es.filter p) := by
  induction es generalizing first with
  | nil => trivial
  | cons e es ih =>
    have htail := fun e' he' => hp e' (List.mem_cons_of_mem _ he')
    by_cases hld : e.role = .ld
    · simp only [Numbered, hld, ↓reduceIte] at h
      rw [List.filter_cons]
      split_ifs with hpe
      · simp only [Numbered, hld, ↓reduceIte]
        exact ih h htail
      · exact ih h htail
    · simp only [Numbered, hld, ↓reduceIte] at h
      rw [List.filter_cons, if_pos (hp e (by simp) hld)]
      simp only [Numbered, hld, ↓reduceIte]
      exact ⟨h.1, ih h.2 htail⟩

section Item

theorem esdEnt_length (name : List UInt8) (type : UInt8) (addr : ℤ) (flag : UInt8) (size : Option ℤ) :
    (Assembly.esdEnt name type addr flag size).length = 16 := by
  simp [Assembly.esdEnt, cebc_length]

variable (name : List UInt8) (type : UInt8) {addr : ℤ} (flag : UInt8)

theorem esdEnt_name (addr : ℤ) (size : Option ℤ) :
    nameAt (ofBytes (Assembly.esdEnt name type addr flag size)) 0 = ebcName name := by
  apply Vector.ext
  intro i hi
  have hlt : i < (cebc name 8).length := by rw [cebc_length]; exact hi
  simp only [nameAt, ebcName, Vector.getElem_ofFn, Nat.zero_add]
  rw [Assembly.esdEnt]
  simp only [List.append_assoc]
  exact ofBytes_append_left hlt _

theorem esdEnt_type (addr : ℤ) (size : Option ℤ) :
    ofBytes (Assembly.esdEnt name type addr flag size) 8 = type := by
  have h := ofBytes_append_right (cebc name 8)
    ([type] ++ mvsPut24 addr ++ [flag] ++ size.elim (blanks 3) mvsPut24) 0
  rw [cebc_length] at h
  simp only [Assembly.esdEnt, List.append_assoc] at h ⊢
  exact h

theorem esdEnt_addr (h0 : 0 ≤ addr) (h1 : addr < 2 ^ 24) (size : Option ℤ) :
    (mvsBe24 (ofBytes (Assembly.esdEnt name type addr flag size)) 9 : ℤ) = addr := by
  have h := mvsBe24_put24 h0 h1 (cebc name 8 ++ [type]) ([flag] ++ size.elim (blanks 3) mvsPut24)
  have hlen : (cebc name 8 ++ [type]).length = 9 := by
    simp [cebc_length]
  rw [hlen] at h
  simpa only [Assembly.esdEnt, List.append_assoc] using h

theorem esdEnt_size (addr : ℤ) {size : ℤ} (h0 : 0 ≤ size) (h1 : size < 2 ^ 24) :
    (mvsBe24 (ofBytes (Assembly.esdEnt name type addr flag (some size))) 13 : ℤ) = size := by
  have h := mvsBe24_put24 h0 h1 (cebc name 8 ++ [type] ++ mvsPut24 addr ++ [flag]) []
  have hlen : (cebc name 8 ++ [type] ++ mvsPut24 addr ++ [flag]).length = 13 := by
    simp [cebc_length]
  rw [hlen, List.append_nil] at h
  exact h

theorem esdEnt_blank (addr : ℤ) :
    mvsBe24 (ofBytes (Assembly.esdEnt name type addr flag none)) 13 = 0x404040 := by
  have hlen : (cebc name 8 ++ [type] ++ mvsPut24 addr ++ [flag]).length = 13 := by
    simp [cebc_length]
  have hb (k : ℕ) : ofBytes (Assembly.esdEnt name type addr flag none) (13 + k) = ofBytes (blanks 3) k := by
    rw [← hlen]
    exact ofBytes_append_right _ (blanks 3) k
  have h0 := hb 0
  have h1 := hb 1
  have h2 := hb 2
  rw [mvsBe24, h0, h1, h2]
  rfl

end Item

namespace Assembly

variable (A : Assembly)

/-- What the reader should find for an entry. -/
def esdRead (e : EsdEnt) : Esd :=
  let s := A.sym e.s
  match e.role with
  | .sect => ⟨ebcName s.name, if s.type = .pc then 0x4 else 0x0, s.val.toNat, (A.sectLength s).toNat, e.esdid⟩
  | .er => ⟨ebcName s.name, if s.isWeak then 0xA else 0x2, 0, 0x404040, e.esdid⟩
  | .xd => ⟨ebcName s.name, 0x6, 0, s.xdlen.toNat, e.esdid⟩
  | .cm => ⟨ebcName s.name, 0x5, 0, (A.sectLength s).toNat, e.esdid⟩
  | .ld => ⟨ebcName s.name, 0x1, s.val.toNat, A.sectEsdid s.sect, 0⟩

def esdImage : List Esd := (A.esd.filter fun e => !A.noLd e).map A.esdRead

/-- The entry's address and length fit in their three bytes. -/
def EntryFits (e : EsdEnt) : Prop :=
  (e.role = .sect ∨ e.role = .ld → 0 ≤ (A.sym e.s).val ∧ (A.sym e.s).val < 2 ^ 24) ∧
    (e.role = .sect ∨ e.role = .cm → A.sectLength (A.sym e.s) < 2 ^ 24) ∧
    (e.role = .xd → 0 ≤ (A.sym e.s).xdlen ∧ (A.sym e.s).xdlen < 2 ^ 24)

instance (e : EsdEnt) : Decidable (A.EntryFits e) := inferInstanceAs (Decidable (_ ∧ _ ∧ _))

theorem sectLength_nonneg (s : Sym) : 0 ≤ A.sectLength s := by
  unfold sectLength
  dsimp only
  split_ifs <;> omega

theorem esdItem_length (e : EsdEnt) : (A.esdItem e).length = 16 := by
  unfold esdItem
  cases e.role <;> exact esdEnt_length ..

theorem esdItem_type (e : EsdEnt) :
    (ofBytes (A.esdItem e) 8).toNat % 16 = (A.esdRead e).type ∧
      ((A.esdRead e).type = ld ↔ e.role = .ld) := by
  unfold esdItem esdRead
  cases e.role <;> simp only [esdEnt_type]
  · split_ifs <;> decide
  · decide
  · split_ifs <;> decide
  · decide
  · decide

theorem esdItem_name (e : EsdEnt) : nameAt (ofBytes (A.esdItem e)) 0 = (A.esdRead e).name := by
  unfold esdItem esdRead
  cases e.role <;> exact esdEnt_name ..

theorem esdItem_addr {e : EsdEnt} (h : A.EntryFits e) :
    mvsBe24 (ofBytes (A.esdItem e)) 9 = (A.esdRead e).addr := by
  obtain ⟨hval, -, -⟩ := h
  unfold esdItem esdRead
  cases hr : e.role <;> simp only
  · obtain ⟨h0, h1⟩ := hval (.inl hr)
    have := esdEnt_addr (A.sym e.s).name (if (A.sym e.s).type = .pc then 0x04 else 0x00) 0x40 h0 h1
      (some (A.sectLength (A.sym e.s)))
    omega
  · obtain ⟨h0, h1⟩ := hval (.inr hr)
    have := esdEnt_addr (A.sym e.s).name 0x01 0x40 h0 h1 (some (A.sectEsdid (A.sym e.s).sect : ℤ))
    omega
  · have := esdEnt_addr (A.sym e.s).name (if (A.sym e.s).isWeak then 0x0A else 0x02) 0x40 (le_refl 0)
      (by norm_num) none
    omega
  · have := esdEnt_addr (A.sym e.s).name 0x06 (A.sym e.s).xdalgn (le_refl 0) (by norm_num)
      (some (A.sym e.s).xdlen)
    omega
  · have := esdEnt_addr (A.sym e.s).name 0x05 0x40 (le_refl 0) (by norm_num)
      (some (A.sectLength (A.sym e.s)))
    omega

theorem symEsdid_le {n : ℕ} (hn : ∀ e ∈ A.esd, e.esdid ≤ n) (s : ℕ) : A.symEsdid s ≤ n := by
  unfold symEsdid
  cases h : ((A.esd.filter fun e => e.s = s ∧ (e.role = .sect ∨ e.role = .cm)).getLast?).or
      (A.esd.find? fun e => e.s = s ∧ e.role ≠ .ld) with
  | none => exact Nat.zero_le n
  | some e =>
    apply hn
    rcases Option.or_eq_some_iff.mp h with h | ⟨-, h⟩
    · exact (List.mem_filter.mp (List.mem_of_getLast? h)).1
    · exact List.mem_of_find?_eq_some h

theorem sectEsdid_le {n : ℕ} (hn : ∀ e ∈ A.esd, e.esdid ≤ n) (sect : ℕ) : A.sectEsdid sect ≤ n := by
  have helim (o : Option EsdEnt) : o.elim 0 (fun e => A.symEsdid e.s) ≤ n := by
    cases o with
    | none => exact Nat.zero_le n
    | some e => exact A.symEsdid_le hn e.s
  have hof : A.sectEsdidOf sect ≤ n := by
    unfold sectEsdidOf
    split_ifs
    · exact Nat.zero_le n
    · exact helim _
  unfold sectEsdid
  split_ifs
  · exact hof
  · exact helim _

theorem esdItem_len {e : EsdEnt} (h : A.EntryFits e) (hn : ∀ e ∈ A.esd, e.esdid < 65536) :
    mvsBe24 (ofBytes (A.esdItem e)) 13 = (A.esdRead e).len := by
  have hlen := A.sectLength_nonneg (A.sym e.s)
  have howner := A.sectEsdid_le (n := 65535) (fun e he => Nat.le_of_lt_succ (hn e he))
    (A.sym e.s).sect
  obtain ⟨-, hsect, hxd⟩ := h
  unfold esdItem esdRead
  cases hr : e.role <;> simp only
  · have := esdEnt_size (A.sym e.s).name (if (A.sym e.s).type = .pc then 0x04 else 0x00) 0x40
      (A.sym e.s).val hlen (hsect (.inl hr))
    omega
  · have := esdEnt_size (A.sym e.s).name 0x01 0x40 (A.sym e.s).val
      (Int.natCast_nonneg (A.sectEsdid (A.sym e.s).sect)) (by omega)
    omega
  · exact esdEnt_blank ..
  · have := esdEnt_size (A.sym e.s).name 0x06 (A.sym e.s).xdalgn 0 (hxd hr).1 (hxd hr).2
    omega
  · have := esdEnt_size (A.sym e.s).name 0x05 0x40 0 hlen (hsect (.inr hr))
    omega

theorem esdRead_esdid (e : EsdEnt) : (A.esdRead e).esdid = if e.role = .ld then 0 else e.esdid := by
  unfold esdRead
  cases e.role <;> rfl

end Assembly

theorem length_flatMap_const {α : Type} {f : α → List UInt8} {n : ℕ} (hf : ∀ x, (f x).length = n)
    (l : List α) : (l.flatMap f).length = n * l.length := by
  simp [List.length_flatMap, hf, mul_comm]

theorem ofBytes_flatMap {α : Type} {f : α → List UInt8} {n : ℕ} (hf : ∀ x, (f x).length = n)
    (pre : List α) (x : α) (post : List α) {j : ℕ} (hj : j < n) :
    ofBytes ((pre ++ x :: post).flatMap f) (n * pre.length + j) = ofBytes (f x) j := by
  have hlen := length_flatMap_const hf pre
  rw [List.flatMap_append, List.flatMap_cons, ← List.append_assoc, ← hlen]
  apply ofBytes_middle
  rw [hf]
  exact hj

namespace Assembly

variable (A : Assembly)

/-- The card reads back as the entries on it, when its first ESDID is theirs. -/
theorem esdItems_out {c : Buffer} {first : ℕ} (hn : ∀ e ∈ A.esd, e.esdid < 65536)
    (post : List EsdEnt) :
    ∀ pre : List EsdEnt, (pre ++ post).length ≤ 3 → mvsBe16 c 10 = 16 * (pre ++ post).length →
      (∀ i < ((pre ++ post).flatMap A.esdItem).length,
        c (16 + i) = ofBytes ((pre ++ post).flatMap A.esdItem) i) →
      (∀ e ∈ post, A.EntryFits e) → Numbered (first + idCount pre) post → ∀ fuel, post.length < fuel →
        esdItems c first fuel pre.length (idCount pre) = post.map A.esdRead := by
  induction post with
  | nil =>
    intro pre _ hcount _ _ _ fuel hfuel
    obtain ⟨fuel, rfl⟩ := Nat.exists_eq_succ_of_ne_zero (Nat.ne_of_gt hfuel)
    rw [List.append_nil] at hcount
    rw [esdItems, if_neg (by omega)]
    rfl
  | cons e post ih =>
    intro pre hlen hcount hbytes hfits hnum fuel hfuel
    obtain ⟨fuel, rfl⟩ := Nat.exists_eq_succ_of_ne_zero (Nat.ne_of_gt (Nat.zero_lt_of_lt hfuel))
    have htotal := length_flatMap_const A.esdItem_length (pre ++ e :: post)
    have hl : (pre ++ e :: post).length = pre.length + 1 + post.length := by
      simp
      omega
    have hbyte (j : ℕ) (hj : j < 16) : c (16 + pre.length * 16 + j) = ofBytes (A.esdItem e) j := by
      have hmid := ofBytes_flatMap A.esdItem_length pre e post hj
      rw [show 16 + pre.length * 16 + j = 16 + (16 * pre.length + j) by ring,
        hbytes _ (by omega), hmid]
    have hbe (j : ℕ) (hj : j + 2 < 16) :
        mvsBe24 c (16 + pre.length * 16 + j) = mvsBe24 (ofBytes (A.esdItem e)) j := by
      rw [mvsBe24, mvsBe24, hbyte j (by omega), add_assoc _ j 1, add_assoc _ j 2,
        hbyte (j + 1) (by omega), hbyte (j + 2) (by omega)]
    have hname : nameAt c (16 + pre.length * 16) = (A.esdRead e).name := by
      rw [← A.esdItem_name]
      apply Vector.ext
      intro i hi
      simp only [nameAt, Vector.getElem_ofFn, Nat.zero_add]
      exact hbyte i (by omega)
    obtain ⟨htype, hld⟩ := A.esdItem_type e
    have hfit := hfits e (by simp)
    have hid : (A.esdRead e).esdid =
        if (A.esdRead e).type = ld then 0 else first + idCount pre := by
      rw [A.esdRead_esdid]
      by_cases hrole : e.role = .ld
      · rw [if_pos hrole, if_pos (hld.mpr hrole)]
      · simp only [Numbered, hrole, ↓reduceIte] at hnum
        rw [if_neg hrole, if_neg (fun h => hrole (hld.mp h)), hnum.1]
    have hcnt : idCount (pre ++ [e]) =
        if (A.esdRead e).type = ld then idCount pre else idCount pre + 1 := by
      by_cases hrole : e.role = .ld
      · rw [if_pos (hld.mpr hrole)]
        simp [idCount, hrole]
      · rw [if_neg (fun h => hrole (hld.mp h))]
        simp [idCount, hrole]
    have hnum' : Numbered (first + idCount (pre ++ [e])) post := by
      by_cases hrole : e.role = .ld
      · simp only [Numbered, hrole, ↓reduceIte] at hnum
        rw [hcnt, if_pos (hld.mpr hrole)]
        exact hnum
      · simp only [Numbered, hrole, ↓reduceIte] at hnum
        rw [hcnt, if_neg (fun h => hrole (hld.mp h))]
        exact hnum.2
    have hih := ih (pre ++ [e]) (by simpa using hlen) (by simpa using hcount)
      (by simpa using hbytes) (fun e' he' => hfits e' (List.mem_cons_of_mem _ he')) hnum' fuel
      (by simpa using hfuel)
    rw [List.length_append, List.length_singleton, hcnt] at hih
    rw [esdItems, if_pos (by omega), List.map_cons]
    simp only [hbyte 8 (by omega), htype, hname, hbe 9 (by omega), hbe 13 (by omega),
      A.esdItem_addr hfit, A.esdItem_len hfit hn, hih]
    rw [← hid]

/-- The first ESDID among the entries of a card. -/
def firstId (es : List EsdEnt) : ℕ := (es.find? fun e => e.role ≠ .ld).elim 0 EsdEnt.esdid

theorem firstId_append (es : List EsdEnt) (e : EsdEnt) (h : ∀ x ∈ es, x.role ≠ .ld → x.esdid ≠ 0) :
    firstId (es ++ [e]) = if e.role ≠ .ld ∧ firstId es = 0 then e.esdid else firstId es := by
  unfold firstId
  rw [List.find?_append]
  cases hf : es.find? fun e => e.role ≠ .ld with
  | none =>
    by_cases hr : e.role = .ld
    · simp [hr]
    · simp [hr]
  | some x =>
    have hx := h x (List.mem_of_find?_eq_some hf) (by simpa using List.find?_some hf)
    simp [hx]

theorem firstId_numbered {first : ℕ} {es : List EsdEnt} (h : Numbered first es) :
    firstId es = first ∨ firstId es = 0 ∧ ∀ e ∈ es, e.role = .ld := by
  induction es with
  | nil => exact .inr ⟨rfl, by simp⟩
  | cons e es ih =>
    by_cases hr : e.role = .ld
    · simp only [Numbered, hr, ↓reduceIte] at h
      have hf : firstId (e :: es) = firstId es := by simp [firstId, hr]
      rw [hf]
      rcases ih h with h | ⟨h0, hall⟩
      · exact .inl h
      · refine .inr ⟨h0, ?_⟩
        intro x hx
        rcases List.mem_cons.mp hx with rfl | hx
        · exact hr
        · exact hall x hx
    · simp only [Numbered, hr, ↓reduceIte] at h
      exact .inl (by simp [firstId, hr, h.1])

theorem numbered_of_ld {es : List EsdEnt} (h : ∀ e ∈ es, e.role = .ld) (first : ℕ) :
    Numbered first es := by
  induction es with
  | nil => trivial
  | cons e es ih =>
    simp only [Numbered, h e (by simp), ↓reduceIte]
    exact ih fun x hx => h x (List.mem_cons_of_mem _ hx)

theorem firstId_lt {n : ℕ} (hn : 0 < n) {es : List EsdEnt} (h : ∀ e ∈ es, e.esdid < n) :
    firstId es < n := by
  unfold firstId
  cases hf : es.find? fun e => e.role ≠ .ld with
  | none => exact hn
  | some e => exact h e (List.mem_of_find?_eq_some hf)

theorem fillEsd_spec (es : List EsdEnt) (out : List EsdEnt) (hout : out.length ≤ 3)
    (hpos : ∀ e ∈ out ++ es, e.role ≠ .ld → e.esdid ≠ 0) :
    ∃ mid rest, A.fillEsd es out (firstId out) =
      (out ++ mid.filter (fun e => !A.noLd e), firstId (out ++ mid.filter fun e => !A.noLd e), rest) ∧
      es = mid ++ rest ∧ (out ++ mid.filter fun e => !A.noLd e).length ≤ 3 ∧
      (out.length < 3 → es ≠ [] → mid ≠ []) := by
  induction es generalizing out with
  | nil => exact ⟨[], [], by simp [fillEsd], rfl, by simpa using hout, by simp⟩
  | cons e es ih =>
    rw [fillEsd]
    by_cases hlt : out.length < 3
    · rw [if_pos hlt]
      by_cases hno : A.noLd e = true
      · have hpos' : ∀ x ∈ out ++ es, x.role ≠ .ld → x.esdid ≠ 0 := by
          intro x hx
          apply hpos
          simp only [List.mem_append, List.mem_cons] at hx ⊢
          tauto
        obtain ⟨mid, rest, h1, h2, h3, -⟩ := ih out hout hpos'
        rw [if_pos hno]
        refine ⟨e :: mid, rest, ?_, by rw [h2]; rfl, ?_, by simp⟩
        · rw [h1]
          simp [hno]
        · simpa [hno] using h3
      · have hpos' : ∀ x ∈ out ++ [e] ++ es, x.role ≠ .ld → x.esdid ≠ 0 := by
          simpa using hpos
        obtain ⟨mid, rest, h1, h2, h3, -⟩ := ih (out ++ [e]) (by simp; omega) hpos'
        rw [if_neg hno, ← firstId_append out e fun x hx => hpos x (List.mem_append_left _ hx)]
        refine ⟨e :: mid, rest, ?_, by rw [h2]; rfl, ?_, by simp⟩
        · rw [h1]
          simp [hno]
        · simpa [hno] using h3
    · rw [if_neg hlt]
      exact ⟨[], e :: es, by simp, rfl, by simpa using hout, fun h => absurd h hlt⟩

theorem Numbered.esdid_bounds {first : ℕ} {es : List EsdEnt} (h : Numbered first es) :
    ∀ e ∈ es, e.role ≠ .ld → first ≤ e.esdid ∧ e.esdid < first + idCount es := by
  induction es generalizing first with
  | nil => simp
  | cons x es ih =>
    intro e he hr
    by_cases hx : x.role = .ld
    · have hc : idCount (x :: es) = idCount es := by simp [idCount, hx]
      simp only [Numbered, hx, ↓reduceIte] at h
      rw [hc]
      rcases List.mem_cons.mp he with rfl | he
      · exact absurd hx hr
      · exact ih h e he hr
    · have hc : idCount (x :: es) = idCount es + 1 := by simp [idCount, hx]
      simp only [Numbered, hx, ↓reduceIte] at h
      rw [hc]
      rcases List.mem_cons.mp he with rfl | he
      · omega
      · have := ih h.2 e he hr
        omega

theorem noLd_of_role {e : EsdEnt} (h : e.role ≠ .ld) : A.noLd e = false := by
  simp [noLd, h]

/-- One ESD card reads back as the entries it was filled with. -/
theorem esdWalk_card {out : List EsdEnt} {first : ℕ} (hn : ∀ e ∈ A.esd, e.esdid < 65536)
    (hlen : out.length ≤ 3) (hfits : ∀ e ∈ out, A.EntryFits e) (hnum : Numbered first out)
    (hpos : 0 < first) (hfirst : firstId out < 65536) (seq : List UInt8) :
    esdWalk (ofBytes (card esdName none (some (16 * out.length))
      (if firstId out ≠ 0 then some (firstId out : ℤ) else none) (out.flatMap A.esdItem) seq)) =
        out.map A.esdRead := by
  set id : Option ℤ := if firstId out ≠ 0 then some (firstId out : ℤ) else none with hid
  set count : Option ℤ := some (16 * out.length) with hcountv
  set c := ofBytes (card esdName none count id (out.flatMap A.esdItem) seq) with hc
  have hname : esdName.length = 3 := rfl
  have hcount : (mvsBe16 c 10 : ℤ) = 16 * out.length :=
    card_count hname none id (out.flatMap A.esdItem) seq (by omega) (by omega)
  have hbytes : ∀ i < (out.flatMap A.esdItem).length, c (16 + i) = ofBytes (out.flatMap A.esdItem) i :=
    fun i hi => card_data hname none count id (out.flatMap A.esdItem) seq hi
  have hnum' : Numbered (mvsBe16 c 14) out := by
    rcases firstId_numbered hnum with hf | ⟨-, hall⟩
    · have hsome : id = some (first : ℤ) := by
        rw [hid, hf, if_pos hpos.ne']
      have hread : (mvsBe16 c 14 : ℤ) = first := by
        rw [hc, hsome]
        exact card_id hname none count (out.flatMap A.esdItem) seq (by omega) (by omega)
      rw [Nat.cast_inj.mp hread]
      exact hnum
    · exact numbered_of_ld hall _
  rw [esdWalk, if_pos (esd_cardType ..)]
  apply A.esdItems_out hn out [] hlen
  · rw [List.nil_append]
    omega
  · rw [List.nil_append]
    exact hbytes
  · exact hfits
  · rw [show idCount [] = 0 from rfl, Nat.add_zero]
    exact hnum'
  · omega

/-- The ESD block reads back as the entries it was written from, without the dropped LDs. -/
theorem deckEsd_esdCards {es : List EsdEnt} (hn : ∀ e ∈ A.esd, e.esdid < 65536) {first : ℕ}
    (hnum : Numbered first es) (hpos : 0 < first) (hid : ∀ e ∈ es, e.esdid < 65536)
    (hfits : ∀ e ∈ es, A.noLd e = false → A.EntryFits e) (fuel : ℕ) (hfuel : es.length < fuel)
    (seq : ℕ) : deckEsd ((A.esdCards fuel es seq).map ofBytes) =
      (es.filter fun e => !A.noLd e).map A.esdRead := by
  induction fuel generalizing es first seq with
  | zero => omega
  | succ fuel ih =>
    cases es with
    | nil => simp [esdCards, deckEsd]
    | cons e es =>
      have hids : ∀ x ∈ [] ++ (e :: es), x.role ≠ .ld → x.esdid ≠ 0 := by
        intro x hx hr
        have := (Numbered.esdid_bounds hnum x hx hr).1
        omega
      obtain ⟨mid, rest, h1, h2, h3, h4⟩ := A.fillEsd_spec (e :: es) [] (by simp) hids
      rw [List.nil_append, show firstId [] = 0 from rfl] at h1
      rw [List.nil_append] at h3
      have hmid : mid ≠ [] := h4 (by simp) (by simp)
      have hshort : rest.length < fuel := by
        have h5 := congrArg List.length h2
        have h6 := List.length_pos_iff.mpr hmid
        rw [List.length_append] at h5
        omega
      have hmem (x : EsdEnt) (hx : x ∈ rest ∨ x ∈ mid) : x ∈ e :: es := by
        rw [h2, List.mem_append]
        exact hx.symm
      obtain ⟨hn1, hn2⟩ := (numbered_append first mid rest).mp (by rw [← h2]; exact hnum)
      have hout : Numbered first (mid.filter fun e => !A.noLd e) :=
        hn1.filter fun x _ hr => by simp [A.noLd_of_role hr]
      have hfits1 : ∀ x ∈ mid.filter (fun e => !A.noLd e), A.EntryFits x := by
        intro x hx
        obtain ⟨hx, hk⟩ := List.mem_filter.mp hx
        exact hfits x (hmem x (.inr hx)) (by simpa using hk)
      have hlt : firstId (mid.filter fun e => !A.noLd e) < 65536 :=
        firstId_lt (by norm_num) fun x hx => hid x (hmem x (.inr (List.mem_filter.mp hx).1))
      have hcard := A.esdWalk_card hn h3 hfits1 hout hpos hlt (cseq A.deckId (seq + 1))
      have hrest := ih hn2 (by omega) (fun x hx => hid x (hmem x (.inl hx)))
        (fun x hx => hfits x (hmem x (.inl hx))) hshort (seq + 1)
      rw [esdCards, h1]
      · rw [List.map_cons, deckEsd, List.flatMap_cons, hcard, h2, List.filter_append, List.map_append]
        exact congrArg _ hrest
      · simp

end Assembly

end Cc370.As370
