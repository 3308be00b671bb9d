import Cc370.Ld370.Iebcopy
import Cc370.Geometry

namespace Cc370.Ld370

open Slices Tracks

/-- The members that ld370 unloads: no name begins with X'FF', and user data that was read gives the
entry point and the length. -/
structure Umember.Ok (m : Umember) : Prop where
  name : m.name[0] ≠ 0xFF
  aliasName : ∀ al ∈ m.aliases, al.name[0] ≠ 0xFF
  srcUd : ∀ ud, m.srcUd = some ud → ud.length = 24 ∧ m.entry = mvsBe24 (ofBytes ud) 15 ∧ m.modlen = mvsBe24 (ofBytes ud) 10
  aliasUd : ∀ al ∈ m.aliases, ∀ ud, al.srcUd = some ud → ud.length = aliasUdLen ∧ al.entry = mvsBe24 (ofBytes ud) 15

/-- A member without user data and aliases of its own. -/
theorem Umember.Ok.plain {m : Umember} (hname : m.name[0] ≠ 0xFF) (hud : m.srcUd = none) (haliases : m.aliases = []) : m.Ok := by
  refine ⟨hname, ?_, ?_, ?_⟩
  · intro al hal
    rw [haliases] at hal
    exact absurd hal List.not_mem_nil
  · intro ud h
    rw [hud] at h
    cases h
  · intro al hal
    rw [haliases] at hal
    exact absurd hal List.not_mem_nil

/-- The user data that a member brings along has the length of its field. -/
structure Umember.Sized (m : Umember) : Prop where
  srcUd : ∀ ud, m.srcUd = some ud → ud.length = 24
  aliasUd : ∀ al ∈ m.aliases, ∀ ud, al.srcUd = some ud → ud.length = aliasUdLen

theorem Umember.Ok.sized {m : Umember} (h : m.Ok) : m.Sized :=
  ⟨fun ud hud => (h.srcUd ud hud).1, fun al hal ud hud => (h.aliasUd al hal ud hud).1⟩

section Entries

variable {a : Attributes} {p : Uplaced}

theorem userdataHead_length : (userdataHead a p).length = 15 := by
  unfold userdataHead
  split_ifs
  · simp [unloadUserdata]
  · simp [unloadUserdata]

theorem buildUserdata_length (hp : p.mem.Sized) : (buildUserdata a p).length = 24 := by
  unfold buildUserdata
  cases hud : p.mem.srcUd with
  | some ud =>
    have hlen := hp.srcUd ud hud
    simp [hlen]
  | none =>
    simp only [List.length_append, userdataHead_length]
    split_ifs
    · simp [unloadUserdata]
    · simp [unloadUserdata]

theorem buildAliasUserdata_length (hp : p.mem.Sized) {al : Ualias} (hal : al ∈ p.mem.aliases) :
    (buildAliasUserdata (buildUserdata a p) p.mem al).length = aliasUdLen := by
  have hmud := buildUserdata_length (a := a) hp
  unfold buildAliasUserdata
  cases hud : al.srcUd with
  | some ud =>
    have hlen : ud.length = 34 := hp.aliasUd al hal ud hud
    simp [hmud, hlen, aliasUdLen]
  | none => simp [hmud, aliasUdLen]

theorem dent_cases {d : Dent} (hd : d ∈ dents p) :
    d = ⟨p.mem.name, p, none⟩ ∨ ∃ al ∈ p.mem.aliases, d = ⟨al.name, p, some al⟩ := by
  rcases List.mem_cons.mp hd with rfl | hd
  · exact .inl rfl
  · obtain ⟨al, hal, rfl⟩ := List.mem_map.mp hd
    exact .inr ⟨al, hal, rfl⟩

theorem dent_length (hp : p.mem.Sized) {d : Dent} (hd : d ∈ dents p) : (d.bytes a).length = d.len := by
  have hmud := buildUserdata_length (a := a) hp
  rcases dent_cases hd with rfl | ⟨al, hal, rfl⟩
  · simp [Dent.bytes, Dent.len, hmud]
  · have haud := buildAliasUserdata_length (a := a) hp hal
    simp only [Dent.bytes, Dent.len, List.length_append, List.length_cons, haud]
    simp [aliasUdLen]

theorem dent_isEntry (hp : p.mem.Ok) {d : Dent} (hd : d ∈ dents p) : IsEntry (d.bytes a) := by
  rw [IsEntry, dent_length hp.sized hd]
  rcases dent_cases hd with rfl | ⟨al, hal, rfl⟩
  · simp [Dent.bytes, Dent.len, mvsPut16, List.getElem?_append]
  · simp [Dent.bytes, Dent.len, aliasUdLen, mvsPut16, List.getElem?_append]

theorem dent_head (hp : p.mem.Ok) {d : Dent} (hd : d ∈ dents p) {b : Buffer} {e : ℕ} (hat : At b e (d.bytes a)) : b e ≠ 0xFF := by
  have hname : At b e d.name.toList := by
    rw [Dent.bytes] at hat
    exact hat.left.left.left
  have h0 : b e = d.name[0] := by
    have hget := hname 0 (by simp)
    simpa using hget
  rw [h0]
  rcases dent_cases hd with rfl | ⟨al, hal, rfl⟩
  · exact hp.name
  · exact hp.aliasName al hal

end Entries

section Groups

def lens (g : List Dent) : ℕ := (g.map Dent.len).sum

theorem lens_append (g g' : List Dent) : lens (g ++ g') = lens g + lens g' := by
  rw [lens, List.map_append, List.sum_append]
  rfl

theorem Dent.len_le (d : Dent) : d.len ≤ 46 := by
  unfold Dent.len aliasUdLen
  split_ifs <;> omega

/-- The entries fit their blocks, and the terminator the last. -/
theorem dirGroups_fit (ds cur : List Dent) (used : ℕ) (hused : used = 2 + lens cur) (hfit : used ≤ 256) :
    ∃ init last, dirGroups used cur ds = init ++ [last] ∧ (∀ g ∈ init, g ≠ [] ∧ 2 + lens g ≤ 256) ∧ 2 + lens last + 12 ≤ 256 ∧
      (init ++ [last]).flatten = cur ++ ds := by
  -- a block is closed only when it is nearly full
  have hne : ∀ (cur : List Dent) (n : ℕ), n ≤ 46 → 256 < 2 + lens cur + n → cur ≠ [] := by
    rintro cur n hn hlt rfl
    rw [lens, List.map_nil, List.sum_nil] at hlt
    omega
  induction ds generalizing cur used with
  | nil =>
    rw [dirGroups]
    split_ifs with hfull
    · refine ⟨[cur], [], rfl, ?_, by simp [lens], by simp⟩
      intro g hg
      rw [List.mem_singleton.mp hg]
      exact ⟨hne cur 12 (by omega) (by omega), by omega⟩
    · exact ⟨[], cur, rfl, nofun, by omega, by simp⟩
  | cons d ds ih =>
    have hd := d.len_le
    have hone : lens [d] = d.len := by simp [lens]
    rw [dirGroups]
    split_ifs with hfull
    · obtain ⟨init, last, heq, hinit, hlast, hflat⟩ := ih [d] (2 + d.len) (by rw [hone]) (by omega)
      refine ⟨cur :: init, last, by rw [heq]; rfl, ?_, hlast, ?_⟩
      · intro g hg
        rcases List.mem_cons.mp hg with rfl | hg
        · exact ⟨hne g d.len hd (by omega), by omega⟩
        · exact hinit g hg
      · rw [List.cons_append, List.flatten_cons, hflat]
        rfl
    · obtain ⟨init, last, heq, hinit, hlast, hflat⟩ := ih (cur ++ [d]) (used + d.len) (by rw [lens_append, hone]; omega)
        (by omega)
      exact ⟨init, last, heq, hinit, hlast, by rw [hflat, List.append_assoc]; rfl⟩

variable {a : Attributes}

theorem group_length {g : List Dent} (hg : ∀ d ∈ g, (d.bytes a).length = d.len) : (g.map (Dent.bytes a)).flatten.length = lens g := by
  rw [List.length_flatten, List.map_map, lens]
  congr 1
  apply List.map_congr_left
  intro d hd
  exact hg d hd

/-- The key of a directory block: the last name in it, and high values for the last block. -/
def dirKey (last : Bool) (g : List Dent) : List UInt8 :=
  if last then List.replicate 8 0xFF else (g.getLast?.map fun d => d.name.toList).getD (List.replicate 8 0xFF)

theorem dirKey_length (last : Bool) (g : List Dent) : (dirKey last g).length = 8 := by
  unfold dirKey
  split_ifs
  · simp
  · cases g.getLast? <;> simp

theorem dirBlock_eq {g : List Dent} (hg : ∀ d ∈ g, (d.bytes a).length = d.len) (last : Bool) :
    dirBlock a last g = dirRecord (dirKey last g) last (g.map (Dent.bytes a)) := by
  have hlen := group_length hg
  have hbody : dirBody a last g = mvsPut16 (2 + (g.map (Dent.bytes a)).flatten.length + (if last then 12 else 0) : ℕ) ++
      (g.map (Dent.bytes a)).flatten ++ (if last then List.replicate 8 0xFF else []) ++
        List.replicate (256 - (2 + (g.map (Dent.bytes a)).flatten.length + if last then 8 else 0)) 0x00 := by
    have hlens : (g.map Dent.len).sum = (g.map (Dent.bytes a)).flatten.length := hlen.symm
    have hend : (if last then List.replicate 8 (0xFF : UInt8) else []).length = if last then 8 else 0 := by
      cases last <;> rfl
    unfold dirBody
    rw [List.flatMap_def, hlens]
    simp only [List.length_append, mvsPut16_length, hend]
  rw [dirBlock, dirRecord, hbody, dirKey]

/-- The blocks as records: only the last ends the directory. -/
theorem directory_records (init : List (List Dent)) (last : List Dent) :
    directory a (init ++ [last]) = init.map (dirBlock a false) ++ [dirBlock a true last] := by
  rw [directory, List.zipIdx_append, List.map_append]
  congr 1
  · apply List.ext_getElem
    · simp
    · intro k hk hk'
      have hlt : k < init.length := by simpa using hk
      simp [Nat.ne_of_lt hlt]
  · simp

end Groups

section Walk

variable {a : Attributes} {p : Uplaced} {b : Buffer} {ulen q : ℕ}

/-- One directory block. -/
theorem entryWalk_group (hp : p.mem.Ok) {g : List Dent} (hg : ∀ d ∈ g, d ∈ dents p) (last : Bool)
    (hroom : 2 + lens g + (if last then 12 else 0) ≤ 256) (hat : At b q (dirBlock a last g)) :
    (dirBlock a last g).length = 276 ∧ b (q + 9) = 8 ∧ mvsBe16 b (q + 10) = 256 ∧ mvsBe16 b (q + 20) ≤ 256 ∧
      entryWalk (fun e => b e = 0xFF) b (q + 20) (mvsBe16 b (q + 20)) 22 2 = (starts (q + 22) (g.map (Dent.bytes a)), last) ∧
      List.Forall₂ (At b) (starts (q + 22) (g.map (Dent.bytes a))) (g.map (Dent.bytes a)) := by
  have hlens : ∀ d ∈ g, (d.bytes a).length = d.len := fun d hd => dent_length hp.sized (hg d hd)
  have hflat := group_length hlens
  have hcount : g.length * 36 ≤ lens g := by
    rw [lens]
    clear hg hroom hat hlens hflat
    induction g with
    | nil => simp
    | cons d g ih =>
      have hd : 36 ≤ d.len := by
        unfold Dent.len aliasUdLen
        split_ifs <;> omega
      rw [List.length_cons, List.map_cons, List.sum_cons]
      omega
  have hkey := dirKey_length last g
  rw [dirBlock_eq hlens last] at hat ⊢
  have hroom' : 2 + (g.map (Dent.bytes a)).flatten.length + (if last then 12 else 0) ≤ 256 := by rw [hflat]; exact hroom
  have hdir := dirRecord_at hkey hroom' hat
  refine ⟨dirRecord_length hkey hroom', hdir.kl, hdir.dl, by rw [hdir.used]; exact hroom', ?_, at_starts hdir.entries⟩
  refine entryWalk_entries ?_ ?_ 2 22 hdir.entries last hdir.used ?_ ?_
  · intro e he
    obtain ⟨d, hd, rfl⟩ := List.mem_map.mp he
    exact dent_isEntry hp (hg d hd)
  · intro r e he hr
    obtain ⟨d, hd, rfl⟩ := List.mem_map.mp he
    exact decide_eq_false (dent_head hp (hg d hd) hr)
  · intro hl
    have hff := hdir.ends hl 0 (by simp)
    exact decide_eq_true hff
  · rw [List.length_map]
    omega

/-- The walk over the directory finds the entries and what is behind it. -/
theorem dirWalk_groups (hp : p.mem.Ok) {init : List (List Dent)} {last : List Dent} (hds : ∀ g ∈ init ++ [last], ∀ d ∈ g, d ∈ dents p)
    (hinit : ∀ g ∈ init, 2 + lens g ≤ 256) (hlast : 2 + lens last + 12 ≤ 256)
    (hat : At b q (directory a (init ++ [last])).flatten) (hulen : q + 276 * (init.length + 1) ≤ ulen) (fuel : ℕ)
    (hfuel : init.length < fuel) : ∃ offs, dirWalk b ulen fuel q = (offs, some (q + 276 * (init.length + 1))) ∧
      List.Forall₂ (At b) offs ((init ++ [last]).flatten.map (Dent.bytes a)) := by
  rw [directory_records] at hat
  induction init generalizing q fuel with
  | nil =>
    obtain ⟨f, rfl⟩ := Nat.exists_eq_add_one_of_ne_zero (Nat.ne_of_gt (Nat.zero_lt_of_lt hfuel))
    have hat' : At b q (dirBlock a true last) := by simpa using hat
    obtain ⟨-, hkl, hdl, hused, hwalk, hall⟩ := entryWalk_group hp (hds last (by simp)) true hlast hat'
    refine ⟨_, ?_, by simpa using hall⟩
    rw [dirWalk, if_pos ⟨by simpa [add_assoc] using hulen, hkl, hdl, hused⟩, hwalk]
    simp [add_assoc]
  | cons g init ih =>
    obtain ⟨f, rfl⟩ := Nat.exists_eq_add_one_of_ne_zero (Nat.ne_of_gt (Nat.zero_lt_of_lt hfuel))
    rw [List.map_cons, List.cons_append, List.flatten_cons] at hat
    rw [List.length_cons] at hulen hfuel
    obtain ⟨hlen, hkl, hdl, hused, hwalk, hall⟩ := entryWalk_group hp (hds g (by simp)) false (hinit g List.mem_cons_self) hat.left
    have hrest := hat.right
    rw [hlen] at hrest
    have hnext : q + 12 + 8 + 256 = q + 276 := rfl
    have hulen' : q + 276 + 276 * (init.length + 1) ≤ ulen := by linarith
    have hroom : q + 12 + 8 + 256 ≤ ulen := by linarith
    obtain ⟨offs, hoffs, hforall⟩ := ih (fun g' hg' => hds g' (List.mem_cons_of_mem _ hg')) (fun g' hg' => hinit g' (List.mem_cons_of_mem _ hg'))
      hrest hulen' f (by clear * - hfuel; omega)
    refine ⟨starts (q + 22) (g.map (Dent.bytes a)) ++ offs, ?_, ?_⟩
    · rw [dirWalk, if_pos ⟨hroom, hkl, hdl, hused⟩, hwalk, hnext, hoffs, List.length_cons]
      simp only [Bool.false_eq_true, if_false, Prod.mk.injEq, Option.some.injEq, true_and]
      ring
    · rw [List.cons_append, List.flatten_cons, List.map_append]
      exact List.rel_append hall hforall

end Walk

section Data

variable {b : Buffer} {ulen q : ℕ}

/-- The module up to the record that ends it, with its text. -/
def moduleBytes (bytes : List UInt8) : List UInt8 := bytes.take (Lmod.walkMember (ofBytes bytes) bytes.length).last.p

theorem splitMember_tile {bytes : List UInt8} {blk : List Lmblock} (h : splitMember bytes = some blk) :
    Tiles.Tile Lmblock.off Lmblock.len 0 (Lmod.walkMember (ofBytes bytes) bytes.length).last.p blk ∧
      (Lmod.walkMember (ofBytes bytes) bytes.length).last.p ≤ bytes.length := by
  unfold splitMember at h
  dsimp only at h
  split_ifs at h with hm
  obtain rfl := Option.some.inj h
  obtain ⟨htile, hle⟩ := Lmod.walk_tile (m := ofBytes bytes) (n := bytes.length) (bytes.length + 1) ⟨0, 0, false⟩ (Nat.zero_le _)
  exact ⟨Tiles.tile_map.mpr htile, hle⟩

theorem blocks_data {bytes : List UInt8} {blk : List Lmblock} (h : splitMember bytes = some blk) :
    blk.flatMap (fun x => x.data bytes) = moduleBytes bytes := by
  obtain ⟨htile, hle⟩ := splitMember_tile h
  have hflat := htile.flatMap_slice hle
  rw [List.drop_zero, Nat.sub_zero] at hflat
  exact hflat

theorem block_length {bytes : List UInt8} {blk : List Lmblock} (h : splitMember bytes = some blk) {x : Lmblock} (hx : x ∈ blk) :
    (x.data bytes).length = x.len ∧ 0 < x.len := by
  obtain ⟨htile, hle⟩ := splitMember_tile h
  have hwithin := (htile.within hx).2
  refine ⟨?_, htile.size_pos hx⟩
  rw [Lmblock.data, List.length_take, List.length_drop]
  omega

/-- The record stream in the bytes is walked to its end. -/
structure WalkTiled (l : List UInt8) (w : Lmod.Walk) : Prop where
  tile : Tiles.Tile Lmod.Item.off Lmod.Item.len 0 w.last.p w.items
  inside : w.last.p ≤ l.length
  /-- There are no more records than bytes, and behind the last one the iterator returns no other. -/
  halts : w.items.length ≤ l.length ∧ Lmod.iterNext (ofBytes l) l.length w.last = if w.malformed then .malformed else .stop
  ends : w.malformed = false → w.last.p = l.length ∨ ∃ rs r,
    w.items = rs ++ r :: Lmod.Iter.text ⟨r.off + r.len, Lmod.announced (ofBytes l) r, true⟩ ∧ r.isModend = true ∧ ∀ x ∈ rs, x.isModend = false
  blocks : w.malformed = false → ∃ blk, splitMember l = some blk ∧ blk.flatMap (fun x => x.data l) = l.take w.last.p

/-- The iterator goes over the records of any bytes, to the end of them or of the module. -/
theorem walkMember_tiled (l : List UInt8) : WalkTiled l (Lmod.walkMember (ofBytes l) l.length) := by
  obtain ⟨htile, hle⟩ := Lmod.walk_tile (m := ofBytes l) (n := l.length) (l.length + 1) ⟨0, 0, false⟩ (Nat.zero_le _)
  have hcount := htile.length_le
  rw [Nat.zero_add] at hcount
  have hfuel := Nat.lt_succ_of_le (hcount.trans hle)
  constructor
  · exact htile
  · exact hle
  · exact ⟨hcount.trans hle, Lmod.walk_last _ _ hfuel⟩
  · intro hmal
    exact Lmod.walk_ends _ _ (Nat.zero_le _) rfl hmal hfuel
  · intro hmal
    have hsplit : splitMember l = some ((Lmod.walkMember (ofBytes l) l.length).items.map fun r => ⟨r.off, r.len, r.kind = .text⟩) := by
      simp [splitMember, hmal]
    exact ⟨_, hsplit, blocks_data hsplit⟩

/-- A record: its key and data lengths, and the data. -/
theorem ckd_at {c : Ckd} (hc : c.spot.len < 65536) (hat : At b q c.bytes) :
    (b (q + 9)).toNat = 0 ∧ mvsBe16 b (q + 10) = c.spot.len ∧ At b (q + 12) c.data := by
  rw [Ckd.bytes, at_append, mvsPutCount_length] at hat
  obtain ⟨hcount, hdata⟩ := hat
  rw [mvsPutCount, at_append] at hcount
  obtain ⟨hhead, hdl⟩ := hcount
  refine ⟨?_, mvsBe16_at_nat hdl hc, hdata⟩
  have h9 := hhead 9 (by simp)
  rw [h9]
  rfl

theorem readData_ckds {cs : List Ckd} (hcs : ∀ c ∈ cs, c.data.length = c.spot.len ∧ 0 < c.spot.len ∧ c.spot.len < 65536) {e : Ckd}
    (he : e.spot.len = 0) (hat : At b q ((cs ++ [e]).flatMap Ckd.bytes)) (hulen : q + ((cs ++ [e]).flatMap Ckd.bytes).length ≤ ulen)
    (fuel : ℕ) (hfuel : cs.length < fuel) : readData b ulen fuel q = cs.flatMap Ckd.data := by
  induction cs generalizing q fuel with
  | nil =>
    obtain ⟨f, rfl⟩ := Nat.exists_eq_add_one_of_ne_zero (Nat.ne_of_gt (Nat.zero_lt_of_lt hfuel))
    rw [List.nil_append, List.flatMap_singleton] at hat hulen
    obtain ⟨-, hdl, -⟩ := ckd_at (by omega) hat
    rw [Ckd.bytes, List.length_append, mvsPutCount_length] at hulen
    rw [readData, if_pos (by omega), hdl, he]
    simp
  | cons c cs ih =>
    obtain ⟨f, rfl⟩ := Nat.exists_eq_add_one_of_ne_zero (Nat.ne_of_gt (Nat.zero_lt_of_lt hfuel))
    rw [List.cons_append, List.flatMap_cons] at hat hulen
    obtain ⟨hlen, hpos, hlt⟩ := hcs c List.mem_cons_self
    obtain ⟨hkl, hdl, hdata⟩ := ckd_at hlt hat.left
    have hclen : c.bytes.length = 12 + c.spot.len := by rw [Ckd.bytes, List.length_append, mvsPutCount_length, hlen]
    rw [List.length_append, hclen] at hulen
    have hrest := hat.right
    rw [hclen, ← add_assoc] at hrest
    have hslice : slice b (q + 12) c.spot.len = c.data := by
      rw [← hlen]
      exact hdata.map_range
    rw [readData, if_pos (by omega), hkl, hdl, Nat.add_zero]
    rw [if_neg (by omega), hslice, List.flatMap_cons,
      ih (fun x hx => hcs x (List.mem_cons_of_mem _ hx)) hrest (by omega) f (by simpa using hfuel)]

end Data

section Single

variable {a : Attributes} {b : Buffer}

theorem ofBytes_at {l : List UInt8} {e k : ℕ} (h : At b e l) (hk : k < l.length) : b (e + k) = ofBytes l k := by
  rw [h k hk, ofBytes, List.getD_eq_getElem _ _ hk]

theorem mvsBe24_field {l : List UInt8} {e k : ℕ} (h : At b e l) (hk : k + 2 < l.length) : mvsBe24 b (e + k) = mvsBe24 (ofBytes l) k := by
  rw [mvsBe24, mvsBe24, ofBytes_at h (by omega), add_assoc e, ofBytes_at h (by omega), add_assoc e, ofBytes_at h hk]

theorem slice_at {l : List UInt8} {e : ℕ} (h : At b e l) : slice b e l.length = l := h.map_range

theorem forall₂_middle {α β : Type} {R : α → β → Prop} {xs : List α} {l₁ l₂ : List β} {y : β} (h : List.Forall₂ R xs (l₁ ++ y :: l₂)) :
    ∃ x₁ x x₂, xs = x₁ ++ x :: x₂ ∧ List.Forall₂ R x₁ l₁ ∧ R x y ∧ List.Forall₂ R x₂ l₂ := by
  induction l₁ generalizing xs with
  | nil =>
    cases h with
    | cons hxy hrest => exact ⟨[], _, _, rfl, .nil, hxy, hrest⟩
  | cons z l₁ ih =>
    cases h with
    | cons hxz hrest =>
      obtain ⟨x₁, x, x₂, rfl, h₁, hx, h₂⟩ := ih hrest
      exact ⟨_ :: x₁, x, x₂, rfl, .cons hxz h₁, hx, h₂⟩

theorem forall₂_mem {α β : Type} {R : α → β → Prop} {xs : List α} {l : List β} (h : List.Forall₂ R xs l) {x : α} (hx : x ∈ xs) :
    ∃ y ∈ l, R x y := by
  induction h with
  | nil => exact absurd hx List.not_mem_nil
  | cons hxy hrest ih =>
    rcases List.mem_cons.mp hx with rfl | hx
    · exact ⟨_, List.mem_cons_self, hxy⟩
    · obtain ⟨y, hy, hr⟩ := ih hx
      exact ⟨y, List.mem_cons_of_mem _ hy, hr⟩

variable {p : Uplaced} {e : ℕ}

/-- What the reader finds of an entry. -/
theorem dent_at {d : Dent} (hat : At b e (d.bytes a)) :
    nameAt b e = d.name ∧ slice b (e + 8) 3 = mvsPut16 d.mem.first.1 ++ [.ofNat d.mem.first.2] := by
  rw [Dent.bytes, at_append, at_append, at_append] at hat
  obtain ⟨⟨⟨hname, htt⟩, hr⟩, -⟩ := hat
  refine ⟨nameAt_at hname, ?_⟩
  have httr : At b (e + 8) (mvsPut16 d.mem.first.1 ++ [.ofNat d.mem.first.2]) := by
    rw [at_append]
    refine ⟨by simpa using htt, by simpa [add_assoc] using hr⟩
  exact slice_at httr

theorem memberDent_at (hat : At b e (Dent.bytes a ⟨p.mem.name, p, none⟩)) :
    b (e + 11) = 0x2C ∧ At b (e + 12) (buildUserdata a p) := by
  rw [Dent.bytes, at_append] at hat
  have hrest := hat.2
  rw [at_cons] at hrest
  simpa [add_assoc] using hrest

theorem aliasDent_at {al : Ualias} (hat : At b e (Dent.bytes a ⟨al.name, p, some al⟩)) :
    b (e + 11) = 0xB1 ∧ At b (e + 12) (buildAliasUserdata (buildUserdata a p) p.mem al) := by
  rw [Dent.bytes, at_append] at hat
  have hrest := hat.2
  rw [at_cons] at hrest
  simpa [add_assoc] using hrest

/-- An alias as it is read back. -/
def aliasBack (a : Attributes) (p : Uplaced) (al : Ualias) : Ualias where
  name := al.name
  entry := mvsBe24 (ofBytes (buildAliasUserdata (buildUserdata a p) p.mem al)) 15
  srcUd := some (buildAliasUserdata (buildUserdata a p) p.mem al)

theorem readAlias_at (hp : p.mem.Ok) {al : Ualias} (hal : al ∈ p.mem.aliases) (hat : At b e (Dent.bytes a ⟨al.name, p, some al⟩)) :
    readAlias b e = aliasBack a p al := by
  have hlen := buildAliasUserdata_length (a := a) hp.sized hal
  obtain ⟨hflag, hud⟩ := aliasDent_at hat
  have hhw : halfwords b e * 2 = aliasUdLen := by
    rw [halfwords, hflag]
    rfl
  have hentry := mvsBe24_field (k := 15) hud (by rw [hlen]; decide)
  have hslice := slice_at hud
  rw [hlen] at hslice
  rw [readAlias, if_pos hhw, (dent_at hat).1, hentry, hslice]
  rfl

/-- The entries of the only member, in the order of their names. -/
def sortedDents (p : Uplaced) : List Dent := (dents p).insertionSort fun d e => nameLe d.name e.name

theorem sortedDents_split (p : Uplaced) : ∃ l₁ l₂, sortedDents p = l₁ ++ ⟨p.mem.name, p, none⟩ :: l₂ ∧
    (l₁ ++ l₂).Perm (p.mem.aliases.map fun al => ⟨al.name, p, some al⟩) := by
  have hperm : (sortedDents p).Perm (dents p) := List.perm_insertionSort _ _
  have hmem : (⟨p.mem.name, p, none⟩ : Dent) ∈ sortedDents p := hperm.mem_iff.mpr List.mem_cons_self
  obtain ⟨l₁, l₂, heq⟩ := List.append_of_mem hmem
  refine ⟨l₁, l₂, heq, ?_⟩
  rw [heq] at hperm
  exact (List.perm_cons _).mp (List.perm_middle.symm.trans hperm)

theorem map_readAlias (hp : p.mem.Ok) {os : List ℕ} {ls : List Dent} (hls : ∀ d ∈ ls, ∃ al ∈ p.mem.aliases, d = ⟨al.name, p, some al⟩)
    (h : List.Forall₂ (At b) os (ls.map (Dent.bytes a))) :
    os.map (readAlias b) = ls.map fun d => (d.alias?.map (aliasBack a p)).getD (readAlias b 0) := by
  induction ls generalizing os with
  | nil =>
    cases h
    rfl
  | cons d ls ih =>
    cases h with
    | cons hat hrest =>
      obtain ⟨al, hal, rfl⟩ := hls d List.mem_cons_self
      rw [List.map_cons, List.map_cons, ih (fun x hx => hls x (List.mem_cons_of_mem _ hx)) hrest, readAlias_at hp hal hat]
      rfl

/-- The reader's filters, on the offsets of the entries. -/
theorem filter_offsets (hp : p.mem.Ok) {offs : List ℕ}
    (h : List.Forall₂ (At b) offs ((sortedDents p).map (Dent.bytes a))) : ∃ main,
      At b main (Dent.bytes a ⟨p.mem.name, p, none⟩) ∧ offs.filter (fun e => !isAlias b e) = [main] ∧
      (∀ e ∈ offs.filter (isAlias b), slice b (e + 8) 3 = slice b (main + 8) 3) ∧
      ((offs.filter (isAlias b)).map (readAlias b)).Perm (p.mem.aliases.map (aliasBack a p)) := by
  obtain ⟨l₁, l₂, hsplit, hperm⟩ := sortedDents_split p
  have halias : ∀ d ∈ l₁ ++ l₂, ∃ al ∈ p.mem.aliases, d = ⟨al.name, p, some al⟩ := by
    intro d hd
    obtain ⟨al, hal, rfl⟩ := List.mem_map.mp (hperm.mem_iff.mp hd)
    exact ⟨al, hal, rfl⟩
  rw [hsplit, List.map_append, List.map_cons] at h
  obtain ⟨o₁, main, o₂, rfl, h₁, hmain, h₂⟩ := forall₂_middle h
  have hrest : List.Forall₂ (At b) (o₁ ++ o₂) ((l₁ ++ l₂).map (Dent.bytes a)) := by
    rw [List.map_append]
    exact List.rel_append h₁ h₂
  have hflag : ∀ e ∈ o₁ ++ o₂, isAlias b e = true := by
    intro e he
    obtain ⟨x, hx, hat⟩ := forall₂_mem hrest he
    obtain ⟨d, hd, rfl⟩ := List.mem_map.mp hx
    obtain ⟨al, -, rfl⟩ := halias d hd
    rw [isAlias, (aliasDent_at hat).1]
    rfl
  have hmainFlag : isAlias b main = false := by
    rw [isAlias, (memberDent_at hmain).1]
    rfl
  have hfilter : (o₁ ++ main :: o₂).filter (isAlias b) = o₁ ++ o₂ := by
    rw [List.filter_append, List.filter_cons_of_neg (by simp [hmainFlag]), ← List.filter_append, List.filter_eq_self]
    exact hflag
  refine ⟨main, hmain, ?_, ?_, ?_⟩
  · rw [List.filter_append, List.filter_cons_of_pos (by simp [hmainFlag])]
    have hnil : ∀ o : List ℕ, (∀ e ∈ o, e ∈ o₁ ++ o₂) → o.filter (fun e => !isAlias b e) = [] := by
      intro o ho
      rw [List.filter_eq_nil_iff]
      intro e he
      simp [hflag e (ho e he)]
    rw [hnil o₁ (fun e he => List.mem_append_left _ he), hnil o₂ (fun e he => List.mem_append_right _ he)]
    rfl
  · intro e he
    rw [hfilter] at he
    obtain ⟨x, hx, hat⟩ := forall₂_mem hrest he
    obtain ⟨d, hd, rfl⟩ := List.mem_map.mp hx
    obtain ⟨al, -, rfl⟩ := halias d hd
    rw [(dent_at hat).2, (dent_at hmain).2]
  · rw [hfilter]
    have hback := map_readAlias hp halias hrest
    rw [hback]
    have hmap := hperm.map fun d => (d.alias?.map (aliasBack a p)).getD (readAlias b 0)
    rw [List.map_map] at hmap
    exact hmap

theorem directory_length {init : List (List Dent)} {last : List Dent} (hds : ∀ g ∈ init ++ [last], ∀ d ∈ g, (d.bytes a).length = d.len)
    (hinit : ∀ g ∈ init, 2 + lens g ≤ 256) (hlast : 2 + lens last + 12 ≤ 256) :
    (directory a (init ++ [last])).flatten.length = 276 * (init.length + 1) := by
  have hblock : ∀ g ∈ init ++ [last], ∀ l : Bool, 2 + lens g + (if l then 12 else 0) ≤ 256 → (dirBlock a l g).length = 276 := by
    intro g hg l hroom
    rw [dirBlock_eq (hds g hg) l]
    apply dirRecord_length (dirKey_length l g)
    rw [group_length (hds g hg)]
    exact hroom
  rw [directory_records, List.flatten_append, List.length_append, List.length_flatten, List.map_map]
  have hconst : init.map (List.length ∘ dirBlock a false) = init.map fun _ => 276 := by
    apply List.map_congr_left
    intro g hg
    exact hblock g (List.mem_append_left _ hg) false (hinit g hg)
  rw [hconst, List.map_const', List.sum_replicate, List.flatten_singleton, hblock last (by simp) true hlast, smul_eq_mul]
  ring

/-- What is written for a single member. -/
theorem writeUnloadMem_single {blksize : ℕ} {m : Umember} {u : Unload} (h : writeUnloadMem a blksize [m] = some u) :
    ∃ blk, splitMember m.bytes = some blk ∧ (∀ x ∈ blk, x.len ≤ blksize) ∧ u.header.length = mvsEnvHdrLen ∧
      u.directory = directory a (dirGroups 2 [] (sortedDents (placeMember (trackCap 1) .start m blk))) ∧
      u.data = (placeMember (trackCap 1) .start m blk).ckds := by
  obtain ⟨parts, hparts, hemit⟩ := Option.bind_eq_some_iff.mp h
  cases hsplit : splitMember m.bytes with
  | none =>
    rw [List.mapM_cons, hsplit] at hparts
    exact absurd hparts (by simp)
  | some blk =>
    rw [List.mapM_cons, hsplit] at hparts
    obtain rfl : [(m, blk)] = parts := by simpa using hparts
    have hsort : ([(m, blk)].insertionSort fun m n => nameLe m.1.name n.1.name) = [(m, blk)] := rfl
    have hheader := (emitUnload_some hemit).2
    unfold emitUnload at hemit
    rw [hsort] at hemit
    dsimp only at hemit
    split_ifs at hemit with hany
    obtain ⟨groups, hgroups, rfl⟩ := Option.map_eq_some_iff.mp hemit
    refine ⟨blk, rfl, ?_, ?_, ?_, ?_⟩
    · simpa using hany
    · have hx := emitUnload_header blksize
      rw [hheader, Unload.mvsUdebxExtent_length hx.length_le, hx.length]
    · unfold dirLayout at hgroups
      dsimp only at hgroups
      split_ifs at hgroups
      obtain rfl := Option.some.inj hgroups
      simp [placeMembers, sortedDents]
    · simp [placeMembers]

theorem ckds_lens {m : Umember} {blk : List Lmblock} (hsplit : splitMember m.bytes = some blk) (cap : ℕ) (h : Head) :
    ∃ cs e, (placeMember cap h m blk).ckds = cs ++ [e] ∧ e.spot.len = 0 ∧ cs.flatMap Ckd.data = moduleBytes m.bytes ∧
      ∀ c ∈ cs, c.data.length = c.spot.len ∧ ∃ x ∈ blk, c.spot.len = x.len := by
  refine ⟨_, _, rfl, rfl, ?_, ?_⟩
  · have hlen : (layout mvsTrkOvh3350 cap h (blk.map Lmblock.len)).length = blk.length := by rw [layout_length, List.length_map]
    have hfst : (blk.zip (layout mvsTrkOvh3350 cap h (blk.map Lmblock.len))).map Prod.fst = blk := List.map_fst_zip hlen.ge
    rw [← blocks_data hsplit, List.flatMap_map]
    conv_rhs => rw [← hfst, List.flatMap_map]
    rfl
  · intro c hc
    obtain ⟨x, hx, rfl⟩ := List.mem_map.mp hc
    have hlens := layout_lens mvsTrkOvh3350 cap h (blk.map Lmblock.len)
    have hx' : x ∈ blk.zip (layout mvsTrkOvh3350 cap h (blk.map Lmblock.len)) := hx
    have hlen : x.2.len = x.1.len := by
      obtain ⟨i, hi, rfl⟩ := List.mem_iff_getElem.mp hx'
      rw [List.getElem_zip]
      have hi' : i < blk.length := by
        rw [List.length_zip] at hi
        omega
      have hget := List.getElem_of_eq hlens (i := i) (by rw [List.length_map, layout_length, List.length_map]; exact hi')
      simpa using hget
    have hmem : x.1 ∈ blk := (List.of_mem_zip hx).1
    refine ⟨?_, x.1, hmem, hlen⟩
    rw [hlen]
    exact (block_length hsplit hmem).1

/-- The image of a single member is read back. -/
theorem read_single {blksize : ℕ} {m : Umember} {u : Unload} (hm : m.Ok) (hb : blksize < 65536) (h : writeUnloadMem a blksize [m] = some u) :
    ∃ blk, splitMember m.bytes = some blk ∧ ∃ al, al.Perm (m.aliases.map (aliasBack a (placeMember (trackCap 1) .start m blk))) ∧
      readIebcopyMember (ofBytes u.bytes) u.bytes.length =
        .ok ⟨m.name, moduleBytes m.bytes, mvsBe24 (ofBytes (buildUserdata a (placeMember (trackCap 1) .start m blk))) 15,
          mvsBe24 (ofBytes (buildUserdata a (placeMember (trackCap 1) .start m blk))) 10,
          some (buildUserdata a (placeMember (trackCap 1) .start m blk)), al⟩ := by
  obtain ⟨blk, hsplit, hfit, hheader, hdir, hdata⟩ := writeUnloadMem_single h
  refine ⟨blk, hsplit, ?_⟩
  generalize hplaced : placeMember (trackCap 1) .start m blk = p at hdir hdata ⊢
  have hmem : p.mem = m := by rw [← hplaced]; rfl
  have hp : p.mem.Ok := by rw [hmem]; exact hm
  obtain ⟨init, last, hgroups, hfits, hlast, hflat⟩ := dirGroups_fit (sortedDents p) [] 2 rfl (by omega)
  have hinit := fun g hg => (hfits g hg).2
  rw [List.nil_append] at hflat
  have hds : ∀ g ∈ init ++ [last], ∀ d ∈ g, d ∈ dents p := by
    intro g hg d hd
    have hin : d ∈ sortedDents p := by
      rw [← hflat]
      exact List.mem_flatten.mpr ⟨g, hg, hd⟩
    exact (List.perm_insertionSort _ _).mem_iff.mp hin
  rw [hgroups] at hdir
  have hdirlen := directory_length (a := a) (fun g hg d hd => dent_length hp.sized (hds g hg d hd)) hinit hlast
  have hat : At (ofBytes u.bytes) 0 u.bytes := at_getD u.bytes 0x00
  generalize ofBytes u.bytes = b at hat ⊢
  have hbytes : u.bytes = u.header ++ u.directory.flatten ++ List.replicate 12 0x00 ++ u.data.flatMap Ckd.bytes := rfl
  rw [hbytes, at_append, at_append, at_append, Nat.zero_add, hheader, hdir] at hat
  obtain ⟨⟨⟨-, hatdir⟩, -⟩, hatdata⟩ := hat
  obtain ⟨cs, e, hcs, he, hcdata, hclens⟩ := ckds_lens hsplit (trackCap 1) .start
  rw [hplaced] at hcs
  rw [hdata, hcs] at hatdata
  have hlen : u.bytes.length = mvsEnvHdrLen + 276 * (init.length + 1) + 12 + ((cs ++ [e]).flatMap Ckd.bytes).length := by
    rw [hbytes, List.length_append, List.length_append, List.length_append, hheader, hdir, hdirlen, List.length_replicate, hdata, hcs]
  have hcount : cs.length ≤ ((cs ++ [e]).flatMap Ckd.bytes).length := by
    rw [List.flatMap_append, List.length_append, List.length_flatMap]
    have hle := List.length_le_sum_of_one_le (cs.map fun c => c.bytes.length) (by
      intro k hk
      obtain ⟨c, -, rfl⟩ := List.mem_map.mp hk
      rw [Ckd.bytes, List.length_append, mvsPutCount_length]
      omega)
    rw [List.length_map] at hle
    omega
  obtain ⟨size, hsize⟩ : ∃ size, size = 276 * (init.length + 1) := ⟨_, rfl⟩
  have hblocks : init.length < size := by
    rw [hsize, Nat.mul_succ]
    omega
  rw [← hsize] at hlen hdirlen
  have hroom : mvsEnvHdrLen + 276 * (init.length + 1) ≤ u.bytes.length := by
    rw [← hsize]
    omega
  obtain ⟨offs, hwalk, hforall⟩ := dirWalk_groups hp hds hinit hlast hatdir hroom u.bytes.length (by omega)
  rw [← hsize] at hwalk
  rw [hflat] at hforall
  obtain ⟨main, hmain, hfilter, httr, hperm⟩ := filter_offsets hp hforall
  obtain ⟨hflag, hud⟩ := memberDent_at hmain
  have hudlen := buildUserdata_length (a := a) hp.sized
  rw [List.length_append, List.length_append, hheader, hdirlen, List.length_replicate, Nat.zero_add] at hatdata
  have hend : mvsEnvHdrLen + size + 12 + ((cs ++ [e]).flatMap Ckd.bytes).length ≤ u.bytes.length := hlen.ge
  have hread := readData_ckds ?_ he hatdata hend u.bytes.length (by omega)
  · have hhdr : mvsEnvHdrLen = 328 := rfl
    have hhw : halfwords b main = 12 := by
      rw [halfwords, hflag]
      rfl
    have hentry := mvsBe24_field (k := 15) hud (by omega)
    have hmodlen := mvsBe24_field (k := 10) hud (by omega)
    have hslice := slice_at hud
    rw [hudlen] at hslice
    have hany : ((offs.filter (isAlias b)).any fun e => slice b (e + 8) 3 ≠ slice b (main + 8) 3) = false := by
      rw [List.any_eq_false]
      intro x hx
      simp [httr x hx]
    refine ⟨(offs.filter (isAlias b)).map (readAlias b), ?_, ?_⟩
    · rw [← hmem]
      exact hperm
    · unfold readIebcopyMember
      rw [if_neg (by omega)]
      simp only [hwalk, hfilter]
      rw [if_neg (by omega), hany]
      simp only [Bool.false_eq_true, if_false, hhw, hread, hcdata, hslice, hentry, hmodlen, (dent_at hmain).1, hmem, le_refl, if_true]
  · intro c hc
    obtain ⟨hl, x, hx, hxl⟩ := hclens c hc
    have hle := hfit x hx
    have h0 := (block_length hsplit hx).2
    exact ⟨hl, by omega, by omega⟩

end Single

end Cc370.Ld370
