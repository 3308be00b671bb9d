import Cc370.Ar370.ReadBack

namespace Cc370.Ar370

open Slices Decimal
open Ld370 (be32 cString loadArchive readMems)

section Model

variable (b : Buffer) (n : ℕ)

def basenameOf (p : List UInt8) : List UInt8 := p.foldl (fun s c => if c = 0x2F ∨ c = 0x5C then [] else s ++ [c]) []

/-- The inputs, each a path and what the file holds. -/
def readInputs (files : List (List UInt8 × List UInt8)) : List Objf := files.map fun f => ⟨basenameOf f.1, f.2⟩

/-- The name in the header at `h`, in a buffer of `outsz` bytes. -/
def memberName (h : ℕ) (ln : Option (ℕ × ℕ)) (outsz : ℕ) : List UInt8 :=
  match (if b h = 0x2F ∧ isDigit (b (h + 1)) then ln else none) with
  | some (at', lnlen) =>
    let o := (atol (cString b n (h + 1))).toNat
    (((List.range (lnlen - o)).map fun k => b (at' + o + k)).takeWhile fun c => c ≠ 0x2F ∧ c ≠ 0x0A).take (outsz - 1)
  | none => (((List.range 16).map fun k => b (h + k)).takeWhile fun c => c ≠ 0x2F ∧ c ≠ 0x20).take (outsz - 1)

def memberSizeAt (q : ℕ) : ℕ := (atol (cString b n (q + 48))).toNat

/-- The headers that the listing comes to from `q` on. -/
def headers : ℕ → ℕ → List ℕ
  | 0, _ => []
  | fuel + 1, q =>
    if q + 60 ≤ n then
      let size := memberSizeAt b n q
      q :: headers fuel (q + 60 + size + size % 2)
    else []

structure Tables where
  symtab : Option ℕ
  ln : Option (ℕ × ℕ)
deriving DecidableEq

def Tables.see (t : Tables) (q : ℕ) : Tables :=
  if b q = 0x2F ∧ b (q + 1) = 0x20 then { t with symtab := some (q + 60) }
  else if b q = 0x2F ∧ b (q + 1) = 0x2F then { t with ln := some (q + 60, memberSizeAt b n q) }
  else t

def tables : Tables := (headers b n n 8).foldl (Tables.see b n) ⟨none, none⟩

/-- The header is one of a member. -/
def isMember (p : ℕ) : Bool := b p ≠ 0x2F ∨ isDigit (b (p + 1))

/-- `cnt` symbols from the `s`th on, each with its member; the name of the first stands at `names`. -/
def listSymbols (symtab : ℕ) (ln : Option (ℕ × ℕ)) : ℕ → ℕ → ℕ → List (List UInt8 × List UInt8)
  | 0, _, _ => []
  | cnt + 1, s, names =>
    let mo := be32 b (symtab + 4 + 4 * s)
    let name := if 8 ≤ mo ∧ mo + 60 ≤ n then memberName b n mo ln (memberNameMax + 1) else [0x3F]
    (cString b n names, name) :: listSymbols symtab ln cnt (s + 1) (names + (cString b n names).length + 1)

/-- The listing: a name and a size for each member, a name and a member for each symbol. -/
structure Listing where
  members : List (List UInt8 × ℕ)
  symbols : List (List UInt8 × List UInt8)
deriving DecidableEq

def list : Option Listing :=
  if n < 8 ∨ (List.range 8).map b ≠ magic then none
  else
    let t := tables b n
    some {
      members := ((headers b n n 8).filter (isMember b)).map fun p =>
        (memberName b n p t.ln (memberNameMax + 1), memberSizeAt b n p)
      symbols := match t.symtab with
        | some q => listSymbols b n q t.ln (be32 b q) 0 (q + 4 + 4 * be32 b q)
        | none => [] }

end Model

section Numbers

variable {b : Buffer} {p fuel : ℕ}

theorem cString_append {s : List UInt8} (hs : ∀ c ∈ s, c ≠ 0) (hfuel : s.length ≤ fuel) (h : At b p s) :
    cString b fuel p = s ++ cString b (fuel - s.length) (p + s.length) := by
  induction s generalizing p fuel with
  | nil => rfl
  | cons c s ih =>
    obtain ⟨fuel, rfl⟩ := Nat.exists_eq_add_one_of_ne_zero (Nat.ne_of_gt (Nat.zero_lt_of_lt hfuel))
    obtain ⟨hc, hrest⟩ := at_cons.mp h
    have hle : s.length ≤ fuel := by simpa using hfuel
    rw [cString, hc, if_neg (hs c List.mem_cons_self), ih (fun x hx => hs x (List.mem_cons_of_mem _ hx)) hle hrest,
      List.length_cons, Nat.add_sub_add_right, List.cons_append, add_assoc p 1, add_comm 1]

theorem cString_head {c : UInt8} (h : c ∈ (cString b fuel p).head?) : c = b p := by
  cases fuel with
  | zero => simp [cString] at h
  | succ fuel =>
    rw [cString] at h
    split_ifs at h
    · simp at h
    · simpa using h.symm

/-- A number in the archive is read up to the byte behind it. -/
theorem atol_cString {v : ℕ} (h : At b p (decimal v)) (hend : isDigit (b (p + (decimal v).length)) = false)
    (hfuel : (decimal v).length ≤ fuel) : atol (cString b fuel p) = v := by
  have hzero : ∀ c ∈ decimal v, c ≠ 0 := by
    rintro c hc rfl
    exact absurd (decimal_digit hc) (by decide)
  rw [cString_append hzero hfuel h]
  apply atol_decimal
  intro c hc
  rw [cString_head hc]
  exact hend

end Numbers

section Names

variable {b : Buffer} {n q : ℕ} {o : Objf}

/-- What both readers make of the name of an input. -/
def nameRead (o : Objf) : List UInt8 :=
  if isLong o then o.member.takeWhile (· ≠ 0x0A) else o.member.takeWhile (· ≠ 0x20)

/-- A buffer of 64 bytes holds every name that the linker reads. -/
theorem memberName_eq (ln : Option (ℕ × ℕ)) : memberName b n q ln (memberNameMax + 1) = Ld370.memberName b n q ln := by
  rw [memberName, Ld370.memberName]
  generalize (if b q = 0x2F ∧ isDigit (b (q + 1)) then ln else none) = found
  cases found with
  | some table => rfl
  | none =>
    apply List.take_of_length_le
    apply (List.takeWhile_sublist _).length_le.trans
    rw [List.length_map, List.length_range]
    decide

theorem takeWhile_stop {l t : List UInt8} {stop : UInt8} (hslash : ∀ c ∈ l, c ≠ 0x2F) :
    (l ++ 0x2F :: t).takeWhile (fun c => c ≠ 0x2F ∧ c ≠ stop) = l.takeWhile (· ≠ stop) := by
  induction l with
  | nil => rfl
  | cons c l ih =>
    have hc := hslash c List.mem_cons_self
    rw [List.cons_append, List.takeWhile_cons, List.takeWhile_cons, ih fun x hx => hslash x (List.mem_cons_of_mem _ hx)]
    simp only [ne_eq, hc, not_false_eq_true, true_and]

theorem memberName_short (hne : o.member ≠ []) (hslash : ∀ c ∈ o.member, c ≠ 0x2F) (hshort : isLong o = false)
    (h : At b q (field 16 (memberField o none))) (ln : Option (ℕ × ℕ)) : Ld370.memberName b n q ln = nameRead o := by
  have hlen : o.member.length ≤ 15 := by simpa [isLong] using hshort
  have hfield : field 16 (memberField o none) = o.member ++ 0x2F :: List.replicate (15 - o.member.length) 0x20 := by
    rw [field, memberField, List.take_of_length_le hlen, List.take_of_length_le (by simp; omega), List.append_assoc,
      List.length_append, List.length_singleton, Nat.add_comm o.member.length 1, ← Nat.sub_sub]
    rfl
  have hread := h.map_range
  rw [field_length] at hread
  obtain ⟨c, t, hct⟩ := List.exists_cons_of_ne_nil hne
  have hq : b q = c := by
    have h0 := h 0 (by rw [field_length]; decide)
    simpa [hfield, hct] using h0
  have hc := hslash c (by rw [hct]; exact List.mem_cons_self)
  rw [Ld370.memberName, if_neg (by rw [hq]; exact fun hx => hc hx.1), nameRead, hshort]
  dsimp only
  rw [hread, hfield, takeWhile_stop hslash]
  rfl

theorem memberName_long (hslash : ∀ c ∈ o.member, c ≠ 0x2F) (h63 : o.member.length ≤ 63) (hlong : isLong o = true)
    {off at' len : ℕ} (hoff : off < 10 ^ 10) (hn : 16 ≤ n) (h : At b q (field 16 (memberField o (some off)))) {before after : List UInt8}
    (hname : At b at' (before ++ (o.member ++ [0x2F, 0x0A]) ++ after)) (hbefore : before.length = off)
    (hlen : len = (before ++ (o.member ++ [0x2F, 0x0A]) ++ after).length) :
    Ld370.memberName b n q (some (at', len)) = nameRead o := by
  have hdlen : (decimal off).length ≤ 10 := (decimal_length_le (by decide)).mpr hoff
  have hfield : field 16 (memberField o (some off)) = 0x2F :: (decimal off ++ List.replicate (15 - (decimal off).length) 0x20) := by
    rw [field, memberField, List.take_of_length_le (by simp; omega), List.length_cons, Nat.add_comm (decimal off).length 1,
      ← Nat.sub_sub]
    rfl
  rw [hfield, at_cons] at h
  obtain ⟨hq, hrest⟩ := h
  have hblank : isDigit (b (q + 1 + (decimal off).length)) = false := by
    have h0 := hrest.right 0 (by rw [List.length_replicate]; omega)
    rw [add_zero] at h0
    rw [h0, List.getElem_replicate]
    decide
  have hdigit : isDigit (b (q + 1)) = true := by
    have h0 := hrest.left 0 (List.length_pos_of_ne_nil (decimal_ne_nil off))
    rw [add_zero] at h0
    rw [h0]
    exact decimal_digit (List.getElem_mem _)
  have hat : At b (at' + off) (o.member ++ 0x2F :: (0x0A :: after)) := by
    have hr := (at_append.mp (List.append_assoc before _ _ ▸ hname)).2
    rw [hbefore, List.append_assoc] at hr
    exact hr
  have hread := hat.map_range
  have hcount : len - off = (o.member ++ 0x2F :: (0x0A :: after)).length := by
    rw [hlen, List.append_assoc, List.length_append, hbefore, Nat.add_sub_cancel_left, List.append_assoc]
    rfl
  rw [Ld370.memberName, if_pos ⟨hq, hdigit⟩, nameRead, hlong]
  dsimp only
  rw [atol_cString hrest.left hblank (by omega), Int.toNat_natCast, hcount, hread, takeWhile_stop hslash,
    List.take_of_length_le ((List.takeWhile_sublist _).length_le.trans h63)]
  rfl

theorem longNames_cons_long {os : List Objf} (h : isLong o = true) :
    longNames (o :: os) = o.member ++ [0x2F, 0x0A] ++ longNames os := by
  rw [longNames, List.filter_cons, if_pos h, List.flatMap_cons]
  rfl

theorem longNames_cons_short {os : List Objf} (h : isLong o = false) : longNames (o :: os) = longNames os := by
  rw [longNames, List.filter_cons, h]
  rfl

/-- A long name stands in the table at its offset; a short one has none. -/
theorem lnoff_mem {os : List Objf} {acc : ℕ} {m : Objf × Option ℕ} (hm : m ∈ os.zip (lnoff acc os)) :
    isLong m.1 = false ∧ m.2 = none ∨ isLong m.1 = true ∧ ∃ before after, longNames os = before ++ (m.1.member ++ [0x2F, 0x0A]) ++ after ∧
      m.2 = some (acc + before.length) := by
  induction os generalizing acc with
  | nil => exact absurd hm List.not_mem_nil
  | cons o os ih =>
    cases ho : isLong o with
    | true =>
      rw [lnoff, if_pos ho, List.zip_cons_cons, List.mem_cons] at hm
      rcases hm with rfl | hm
      · exact .inr ⟨ho, [], longNames os, longNames_cons_long ho, rfl⟩
      · rcases ih hm with hshort | ⟨hlong, before, after, heq, hoff⟩
        · exact .inl hshort
        · refine .inr ⟨hlong, o.member ++ [0x2F, 0x0A] ++ before, after, ?_, ?_⟩
          · rw [longNames_cons_long ho, heq]
            simp only [List.append_assoc]
          · rw [hoff]
            simp only [List.length_append, List.length_cons, List.length_nil]
            congr 1
            omega
    | false =>
      rw [lnoff, if_neg (by simp [ho]), List.zip_cons_cons, List.mem_cons] at hm
      rcases hm with rfl | hm
      · exact .inl ⟨ho, rfl⟩
      · rw [longNames_cons_short ho]
        exact ih hm

end Names

section Headers

variable {b : Buffer} {n q size : ℕ} {nf : List UInt8}

theorem memberSizeAt_hdr (h : size ≤ arSizeMax) (hn : 10 ≤ n) (hq : At b q (arHdr nf size)) : memberSizeAt b n q = size := by
  obtain ⟨mid, hmid, heq⟩ := arHdr_eq nf h
  have hlen : (decimal size).length ≤ 10 := (decimal_length_le (by decide)).mpr (by rw [arSizeMax] at h; omega)
  have hnumber : At b (q + 48) (decimal size ++ (List.replicate (10 - (decimal size).length) 0x20 ++ [0x60, 0x0A])) := by
    rw [heq, List.append_assoc] at hq
    have hr := hq.right
    rw [hmid, numberField, List.append_assoc] at hr
    exact hr
  have hend : isDigit (b (q + 48 + (decimal size).length)) = false := by
    have h0 := hnumber.right 0 (by simp)
    rw [add_zero] at h0
    rw [h0]
    by_cases hfull : 10 - (decimal size).length = 0
    · simp only [hfull, List.replicate_zero, List.nil_append, List.getElem_cons_zero]
      decide
    · rw [List.getElem_append_left (by rw [List.length_replicate]; omega), List.getElem_replicate]
      decide
  rw [memberSizeAt, atol_cString hnumber.left hend (by omega), Int.toNat_natCast]

theorem headers_hdr {fuel : ℕ} (h : size ≤ arSizeMax) (hq : At b q (arHdr nf size)) (hn : q + 60 ≤ n) :
    headers b n (fuel + 1) q = q :: headers b n fuel (q + 60 + size + size % 2) := by
  rw [headers, if_pos hn, memberSizeAt_hdr h (by omega) hq]

theorem headers_members (ms : List (Objf × Option ℕ)) (hdata : ∀ m ∈ ms, m.1.data.length ≤ arSizeMax) {fuel : ℕ}
    (hfuel : ms.length < fuel) (h : At b q (ms.map fun m => writeMember m.1 m.2).flatten)
    (hn : n = q + (ms.map fun m => memberSize m.1).sum) : headers b n fuel q = memberOffsets q (ms.map Prod.fst) := by
  induction ms generalizing q fuel with
  | nil =>
    obtain ⟨fuel, rfl⟩ := Nat.exists_eq_add_one_of_ne_zero (Nat.ne_of_gt hfuel)
    rw [headers, if_neg (by simp at hn; omega)]
    rfl
  | cons m ms ih =>
    obtain ⟨fuel, rfl⟩ := Nat.exists_eq_add_one_of_ne_zero (Nat.ne_of_gt (Nat.zero_lt_of_lt hfuel))
    have hsize := hdata m List.mem_cons_self
    rw [List.map_cons, List.flatten_cons] at h
    have hrest := h.right
    rw [writeMember_length hsize] at hrest
    rw [List.map_cons, List.sum_cons] at hn
    have hms : q + 60 + m.1.data.length + m.1.data.length % 2 = q + memberSize m.1 := by
      rw [memberSize]
      omega
    rw [headers_hdr hsize h.left.left.left (by rw [memberSize] at hn; omega), hms,
      ih (fun x hx => hdata x (List.mem_cons_of_mem _ hx)) (by simpa using hfuel) hrest (by omega)]
    rfl

end Headers

section Listing

variable {objs : List Objf} {bytes : List UInt8} {b : Buffer}

/-- Where the header of the long names stands. -/
def longHeader (objs : List Objf) : List ℕ := if (longNames objs).length = 0 then [] else [8 + symmember objs]

theorem symtab_head (h : create objs = some bytes) (hb : At b 0 bytes) : b 8 = 0x2F ∧ b 9 = 0x20 := by
  obtain ⟨-, hsym, -, -⟩ := create_eq h
  obtain ⟨hhdr, -, -, -⟩ := symtab_parts h hb
  have hfield := arHdr_name hsym hhdr
  exact ⟨hfield 0 (by decide), hfield 1 (by decide)⟩

theorem longNames_hdr (h : create objs = some bytes) (hb : At b 0 bytes) (h0 : (longNames objs).length ≠ 0) :
    At b (8 + symmember objs) (arHdr [0x2F, 0x2F] (longNames objs).length) ∧
      At b (8 + symmember objs + 60) (longNames objs) ∧ b (8 + symmember objs) = 0x2F ∧ b (8 + symmember objs + 1) = 0x2F := by
  obtain ⟨-, -, hln, -⟩ := create_eq h
  obtain ⟨-, -, hl, -⟩ := archive_parts h hb
  rw [writeLongNames, if_neg h0] at hl
  have hfield := arHdr_name hln hl.left.left
  have hnames := hl.left.right
  rw [arHdr_length hln] at hnames
  exact ⟨hl.left.left, hnames, hfield 0 (by decide), hfield 1 (by decide)⟩

theorem create_name_le (h : create objs = some bytes) {o : Objf} (ho : o ∈ objs) : o.member.length ≤ 63 := by
  rw [create] at h
  split_ifs at h with hbad hbig
  by_contra hlt
  exact hbad (List.any_eq_true.mpr ⟨o, ho, decide_eq_true (.inr (not_le.mp hlt))⟩)

/-- The listing comes to the symbol table, the long names if there are any, and the members. -/
theorem headers_create (h : create objs = some bytes) (hb : At b 0 bytes) :
    headers b bytes.length bytes.length 8 = 8 :: (longHeader objs ++ (List.range objs.length).map (objoff objs)) := by
  obtain ⟨-, hsym, hln, hdata⟩ := create_eq h
  obtain ⟨-, -, -, hm⟩ := archive_parts h hb
  obtain ⟨hhdr, -, -, -⟩ := symtab_parts h hb
  have hlen := archive_length h
  have hfuel := archive_members_lt h
  obtain ⟨fuel, hf⟩ : ∃ fuel, bytes.length = fuel + 2 := ⟨bytes.length - 2, by omega⟩
  have hmem : ∀ m ∈ objs.zip (lnoff 0 objs), m.1.data.length ≤ arSizeMax := by
    intro m hm
    apply hdata
    rw [← zip_lnoff_fst objs]
    exact List.mem_map_of_mem hm
  have hsum : ((objs.zip (lnoff 0 objs)).map fun m => memberSize m.1).sum = (objs.map memberSize).sum := by
    conv_rhs => rw [← zip_lnoff_fst objs, List.map_map]
    rfl
  have hwalk : ∀ fuel, objs.length < fuel → headers b bytes.length fuel (8 + symmember objs + lnmember objs) =
      (List.range objs.length).map (objoff objs) := by
    intro fuel hfuel
    rw [headers_members _ hmem (by rwa [List.length_zip, lnoff_length, min_self]) hm (by rw [hsum]; exact hlen),
      zip_lnoff_fst, memberOffsets_objoff]
  have hsymsize : 8 + 60 + symdata objs + symdata objs % 2 = 8 + symmember objs := by
    rw [symmember]
    omega
  have hfirst : 8 + 60 ≤ bytes.length := by
    rw [symmember] at hlen
    omega
  have hstep : headers b bytes.length (fuel + 1 + 1) 8 = 8 :: headers b bytes.length (fuel + 1) (8 + symmember objs) := by
    rw [headers_hdr hsym hhdr hfirst, hsymsize]
  rw [← show bytes.length = fuel + 1 + 1 from hf] at hstep
  rw [hstep, longHeader]
  by_cases h0 : (longNames objs).length = 0
  · have hw := hwalk (fuel + 1) (by omega)
    rw [lnmember, if_pos h0, add_zero] at hw
    rw [if_pos h0, hw, List.nil_append]
  · have hw := hwalk fuel (by omega)
    rw [lnmember, if_neg h0] at hw hlen
    rw [if_neg h0, headers_hdr hln (longNames_hdr h hb h0).1 (by omega), List.singleton_append, ← hw]
    congr 3
    omega

theorem memberName_create (h : create objs = some bytes) (hb : At b 0 bytes) {i : ℕ} (hi : i < objs.length)
    (hne : objs[i].member ≠ []) (hslash : ∀ c ∈ objs[i].member, c ≠ 0x2F) :
    Ld370.memberName b bytes.length (objoff objs i) (longTable objs) = nameRead objs[i] := by
  obtain ⟨-, -, hln, hdata⟩ := create_eq h
  obtain ⟨ln, hmem, hat⟩ := member_at h hb hi
  have hfield := arHdr_name (hdata _ (List.getElem_mem hi)) hat.left.left
  rcases lnoff_mem hmem with ⟨hshort, hnone⟩ | ⟨hlong, before, after, hnames, hsome⟩
  · dsimp only at hshort hnone
    rw [hnone] at hfield
    exact memberName_short hne hslash hshort hfield _
  · dsimp only at hlong hnames hsome
    rw [hsome, zero_add] at hfield
    have h0 : (longNames objs).length ≠ 0 := by
      rw [hnames]
      simp
    have hbefore : before.length < 10 ^ 10 := by
      rw [hnames, List.append_assoc, List.length_append, arSizeMax] at hln
      omega
    have hlen := archive_length h
    rw [symmember] at hlen
    rw [longTable, if_neg h0]
    exact memberName_long hslash (create_name_le h (List.getElem_mem hi)) hlong hbefore (by omega) hfield
      (hnames ▸ (longNames_hdr h hb h0).2.1) rfl (by rw [hnames])

section Members

variable (h : create objs = some bytes) (hb : At b 0 bytes) (hname : ∀ o ∈ objs, o.member ≠ [] ∧ ∀ c ∈ o.member, c ≠ 0x2F)

include h hb hname

/-- The names that the linker reads. -/
theorem loadArchive_names : ∃ ar, loadArchive b bytes.length = some ar ∧ ar.mem.map Ld370.Arsym.name = objs.map nameRead := by
  obtain ⟨hmagic, -, -, -⟩ := archive_parts h hb
  have hread : (List.range 8).map b = magic := by
    have hr := hmagic.map_range
    simp only [zero_add] at hr
    exact hr
  have hlen := archive_length h
  have hsome : ∃ ar, loadArchive b bytes.length = some ar := by
    rw [loadArchive, if_neg (by rw [hread]; simp; omega)]
    exact ⟨_, rfl⟩
  obtain ⟨ar, har⟩ := hsome
  refine ⟨ar, har, ?_⟩
  rw [loadArchive_mem h hb hname har, List.map_map]
  apply List.ext_getElem
  · simp
  · intro i hi hi'
    have hi'' : i < objs.length := by simpa using hi
    obtain ⟨hne, hslash⟩ := hname _ (List.getElem_mem hi'')
    simpa using memberName_create h hb hi'' hne hslash

theorem isMember_objoff {i : ℕ} (hi : i < objs.length) : isMember b (objoff objs i) = true := by
  obtain ⟨-, -, -, hdata⟩ := create_eq h
  obtain ⟨hne, hslash⟩ := hname _ (List.getElem_mem hi)
  obtain ⟨ln, -, hat⟩ := member_at h hb hi
  have hfield := arHdr_name (hdata _ (List.getElem_mem hi)) hat.left.left
  rw [isMember, decide_eq_true_iff]
  cases ln with
  | none =>
    obtain ⟨c, t, hct⟩ := List.exists_cons_of_ne_nil hne
    have hq : b (objoff objs i) = c := by
      have h0 := hfield 0 (by rw [field_length]; decide)
      simpa [field, memberField, hct] using h0
    rw [hq]
    exact .inl (hslash c (by rw [hct]; exact List.mem_cons_self))
  | some off =>
    obtain ⟨d, t, hdt⟩ := List.exists_cons_of_ne_nil (decimal_ne_nil off)
    have hq : b (objoff objs i + 1) = d := by
      have h1 := hfield 1 (by rw [field_length]; decide)
      simpa [field, memberField, hdt] using h1
    rw [hq]
    exact .inr (decimal_digit (n := off) (by rw [hdt]; exact List.mem_cons_self))

/-- A member is passed over in the search for the tables. -/
theorem see_objoff (t : Tables) {i : ℕ} (hi : i < objs.length) : t.see b bytes.length (objoff objs i) = t := by
  obtain ⟨-, -, -, hdata⟩ := create_eq h
  obtain ⟨hne, hslash⟩ := hname _ (List.getElem_mem hi)
  obtain ⟨ln, -, hat⟩ := member_at h hb hi
  have hfield := arHdr_name (hdata _ (List.getElem_mem hi)) hat.left.left
  obtain ⟨hnames, hsyms⟩ := memberField_head hne hslash ln hfield
  rw [Tables.see, if_neg fun hx => hsyms ⟨hx.1, .inl hx.2⟩, if_neg hnames]

theorem tables_create : tables b bytes.length = ⟨some 68, longTable objs⟩ := by
  obtain ⟨-, hsym, hln, -⟩ := create_eq h
  obtain ⟨h8, h9⟩ := symtab_head h hb
  have hmembers : ∀ t, ((List.range objs.length).map (objoff objs)).foldl (Tables.see b bytes.length) t = t := by
    intro t
    apply List.foldlRecOn (motive := (· = t)) _ _ rfl
    rintro t' rfl q hq
    obtain ⟨i, hi, rfl⟩ := List.mem_map.mp hq
    exact see_objoff h hb hname t' (List.mem_range.mp hi)
  rw [tables, headers_create h hb, List.foldl_cons, List.foldl_append, hmembers, Tables.see, if_pos ⟨h8, h9⟩, longHeader,
    longTable]
  split_ifs with h0
  · rfl
  · obtain ⟨hhdr, -, hl0, hl1⟩ := longNames_hdr h hb h0
    have hlen := archive_length h
    rw [symmember] at hlen
    rw [List.foldl_cons, List.foldl_nil, Tables.see, if_neg (by rw [hl0, hl1]; decide), if_pos ⟨hl0, hl1⟩,
      memberSizeAt_hdr hln (by omega) hhdr]

/-- The names that the listing shows. -/
theorem list_names : ∃ l, list b bytes.length = some l ∧ l.members.map Prod.fst = objs.map nameRead := by
  obtain ⟨hmagic, -, -, -⟩ := archive_parts h hb
  obtain ⟨h8, h9⟩ := symtab_head h hb
  have hread : (List.range 8).map b = magic := by
    have hr := hmagic.map_range
    simp only [zero_add] at hr
    exact hr
  have hlen := archive_length h
  have hfilter : (headers b bytes.length bytes.length 8).filter (isMember b) = (List.range objs.length).map (objoff objs) := by
    have hlong : (longHeader objs).filter (isMember b) = [] := by
      apply List.filter_eq_nil_iff.mpr
      intro q hq
      rw [longHeader] at hq
      split_ifs at hq with h0
      · exact absurd hq List.not_mem_nil
      · obtain ⟨-, -, hl0, hl1⟩ := longNames_hdr h hb h0
        rw [List.mem_singleton.mp hq, isMember, hl0, hl1]
        decide
    rw [headers_create h hb, List.filter_cons_of_neg (by rw [isMember, h8, h9]; decide), List.filter_append, hlong,
      List.nil_append]
    apply List.filter_eq_self.mpr
    intro q hq
    obtain ⟨i, hi, rfl⟩ := List.mem_map.mp hq
    exact isMember_objoff h hb hname (List.mem_range.mp hi)
  rw [list, if_neg (by rw [hread]; simp; omega)]
  refine ⟨_, rfl, ?_⟩
  dsimp only
  rw [hfilter, tables_create h hb hname, List.map_map, List.map_map]
  apply List.ext_getElem
  · simp
  · intro i hi hi'
    have hi'' : i < objs.length := by simpa using hi
    obtain ⟨hne, hslash⟩ := hname _ (List.getElem_mem hi'')
    have hread := memberName_create h hb hi'' hne hslash
    rw [← memberName_eq] at hread
    simpa using hread

end Members

end Listing

section Paths

variable {files : List (List UInt8 × List UInt8)} {bytes : List UInt8} {b : Buffer}

theorem basenameOf_ne_slash (p : List UInt8) : ∀ c ∈ basenameOf p, c ≠ 0x2F := by
  apply List.foldlRecOn (motive := fun s => ∀ c ∈ s, c ≠ 0x2F)
  · exact nofun
  · intro s hs c _ x hx
    split_ifs at hx with hc
    · exact absurd hx List.not_mem_nil
    · rcases List.mem_append.mp hx with hx | hx
      · exact hs x hx
      · rw [List.mem_singleton.mp hx]
        exact fun h => hc (.inl h)

theorem takeWhile_ne_eq {l : List UInt8} {c : UInt8} : l.takeWhile (· ≠ c) = l ↔ c ∉ l := by
  rw [List.takeWhile_eq_self_iff]
  constructor
  · intro h hc
    simpa using h c hc
  · rintro h x hx
    rw [decide_eq_true_iff]
    rintro rfl
    exact h hx

theorem nameRead_eq_iff {o : Objf} : nameRead o = o.member ↔
    if 15 < o.member.length then 0x0A ∉ o.member else 0x20 ∉ o.member := by
  rw [nameRead, isLong]
  by_cases hlong : 15 < o.member.length
  · rw [if_pos (decide_eq_true hlong), if_pos hlong, takeWhile_ne_eq]
  · rw [if_neg (by simpa using hlong), if_neg hlong, takeWhile_ne_eq]

/-- The linker and the listing read the base names back exactly when a short one has no blank and a long
one no newline. -/
theorem names_read_back_iff (h : create (readInputs files) = some bytes) (hne : ∀ f ∈ files, basenameOf f.1 ≠ [])
    (hb : At b 0 bytes) :
    ((∃ ar, loadArchive b bytes.length = some ar ∧ ar.mem.map Ld370.Arsym.name = files.map fun f => basenameOf f.1) ∧
      ∃ l, list b bytes.length = some l ∧ l.members.map Prod.fst = files.map fun f => basenameOf f.1) ↔
    ∀ f ∈ files, if 15 < (basenameOf f.1).length then 0x0A ∉ basenameOf f.1 else 0x20 ∉ basenameOf f.1 := by
  have hname : ∀ o ∈ readInputs files, o.member ≠ [] ∧ ∀ c ∈ o.member, c ≠ 0x2F := by
    intro o ho
    obtain ⟨f, hf, rfl⟩ := List.mem_map.mp ho
    exact ⟨hne f hf, basenameOf_ne_slash f.1⟩
  obtain ⟨ar, har, hmem⟩ := loadArchive_names h hb hname
  obtain ⟨l, hl, hlist⟩ := list_names h hb hname
  have hiff : (readInputs files).map nameRead = files.map (fun f => basenameOf f.1) ↔
      ∀ f ∈ files, if 15 < (basenameOf f.1).length then 0x0A ∉ basenameOf f.1 else 0x20 ∉ basenameOf f.1 := by
    rw [readInputs, List.map_map, List.map_inj_left]
    apply forall₂_congr
    intro f _
    exact nameRead_eq_iff
  rw [← hiff]
  constructor
  · rintro ⟨⟨ar', har', hnames⟩, -⟩
    rw [har, Option.some.injEq] at har'
    rw [← hmem, har', hnames]
  · intro hnames
    exact ⟨⟨ar, har, hmem.trans hnames⟩, l, hl, hlist.trans hnames⟩

end Paths

theorem at_ofBytes (bytes : List UInt8) : At (ofBytes bytes) 0 bytes := at_getD bytes 0

/-- The file `lib/a.o`. -/
def plainFile : List UInt8 × List UInt8 := ([0x6C, 0x69, 0x62, 0x2F, 0x61, 0x2E, 0x6F], oneObject.data)

theorem plainFile_read_back : ∃ bytes, create (readInputs [plainFile]) = some bytes ∧
    ((∃ ar, loadArchive (ofBytes bytes) bytes.length = some ar ∧ ar.mem.map Ld370.Arsym.name = [[0x61, 0x2E, 0x6F]]) ∧
      ∃ l, list (ofBytes bytes) bytes.length = some l ∧ l.members.map Prod.fst = [[0x61, 0x2E, 0x6F]]) := by
  have hsome : (create (readInputs [plainFile])).isSome = true := by decide +kernel
  obtain ⟨bytes, hbytes⟩ := Option.isSome_iff_exists.mp hsome
  refine ⟨bytes, hbytes, ?_⟩
  apply (names_read_back_iff hbytes (by decide) (at_ofBytes bytes)).mpr
  decide

/-- The file `A B.o`. -/
def blankFile : List UInt8 × List UInt8 := ([0x41, 0x20, 0x42, 0x2E, 0x6F], oneObject.data)

theorem blankFile_cut : basenameOf blankFile.1 = [0x41, 0x20, 0x42, 0x2E, 0x6F] ∧
    ∃ bytes, create (readInputs [blankFile]) = some bytes ∧
      (∃ ar, loadArchive (ofBytes bytes) bytes.length = some ar ∧ ar.mem.map Ld370.Arsym.name = [[0x41]]) ∧
        ∃ l, list (ofBytes bytes) bytes.length = some l ∧ l.members.map Prod.fst = [[0x41]] := by
  have hsome : (create (readInputs [blankFile])).isSome = true := by decide +kernel
  obtain ⟨bytes, hbytes⟩ := Option.isSome_iff_exists.mp hsome
  have hname : ∀ o ∈ readInputs [blankFile], o.member ≠ [] ∧ ∀ c ∈ o.member, c ≠ 0x2F := by
    intro o ho
    rw [List.mem_singleton.mp ho]
    exact ⟨by decide, basenameOf_ne_slash blankFile.1⟩
  refine ⟨by decide, bytes, hbytes, ?_, ?_⟩
  · exact loadArchive_names hbytes (at_ofBytes bytes) hname
  · exact list_names hbytes (at_ofBytes bytes) hname

end Cc370.Ar370
