import Cc370.Ld370.ReadBack
import Cc370.Ld370.Bare

namespace Cc370.Ld370

open Slices Tracks

/-- What the reader of an unload has to find of the member that was written. -/
structure ReadsBack (a : Attributes) (p : Uplaced) (m : Umember) : Prop where
  name : m.name = p.mem.name
  bytes : m.bytes = moduleBytes p.mem.bytes
  entry : m.entry = p.mem.entry
  modlen : m.modlen = p.mem.modlen
  srcUd : m.srcUd = some (buildUserdata a p)
  aliases : m.aliases.Perm (p.mem.aliases.map fun al => ⟨al.name, al.entry, some (buildAliasUserdata (buildUserdata a p) p.mem al)⟩)

def ttr (q : ℕ × ℕ) : List UInt8 := mvsPut16 q.1 ++ [.ofNat q.2]

/-- The entries of a member in a library: those it had, with its new places and the name it has there. -/
def Repacked (a : Attributes) (p : Uplaced) (n : Name) (u : Unload) : Prop :=
  ∃ first text : ℕ × ℕ,
    (∃ blk ∈ u.directory, put (put (put (Dent.bytes a ⟨p.mem.name, p, none⟩) 0 n.toList) 8 (ttr first)) 12 (ttr text) <:+: blk) ∧
    ∀ al ∈ p.mem.aliases, ∃ blk ∈ u.directory,
      put (put (put (Dent.bytes a ⟨al.name, p, some al⟩) 8 (ttr first)) 12 (ttr text)) 36 n.toList <:+: blk

/-- A member that is packed again, by itself or among others, under its name or another. -/
structure PacksAgain (a : Attributes) (blksize : ℕ) (p : Uplaced) (m : Umember) : Prop where
  alone : ∀ a' n, (∀ al ∈ p.mem.aliases, al.name ≠ n) → (writeUnloadMem a' blksize [{ m with name := n }]).isSome = true
  entries : ∀ a' blksize' n ms u, { m with name := n } ∈ ms → writeUnloadMem a' blksize' ms = some u → Repacked a p n u

/-- The addresses in the directory entry, which have three bytes there. -/
structure Umember.InRange (m : Umember) : Prop where
  entry : 0 ≤ m.entry ∧ m.entry < 2 ^ 24
  modlen : 0 ≤ m.modlen ∧ m.modlen < 2 ^ 24
  aliases : ∀ al ∈ m.aliases, 0 ≤ al.entry ∧ al.entry < 2 ^ 24

section Fields

variable {a : Attributes} {p : Uplaced}

theorem emod_eq_iff (v : ℤ) : v % 16777216 = v ↔ 0 ≤ v ∧ v < 2 ^ 24 := by
  omega

theorem be24_drop {l ttr : List UInt8} {k : ℕ} (hl : ttr.length = 3) (hk : 3 ≤ k) :
    mvsBe24 (ofBytes (ttr ++ l.drop 3)) k = mvsBe24 (ofBytes l) k := by
  have hget : ∀ j, 3 ≤ j → ofBytes (ttr ++ l.drop 3) j = ofBytes l j := by
    intro j hj
    obtain ⟨i, rfl⟩ := Nat.exists_eq_add_of_le hj
    rw [← hl, ofBytes_append_right, hl]
    simp [ofBytes]
  rw [mvsBe24, mvsBe24, hget k hk, hget (k + 1) (by omega), hget (k + 2) (by omega)]

/-- The entry point in the user data is the member's if it has an address. -/
theorem buildUserdata_entry (hp : p.mem.Ok) :
    (mvsBe24 (ofBytes (buildUserdata a p)) 15 : ℤ) = p.mem.entry ↔ 0 ≤ p.mem.entry ∧ p.mem.entry < 2 ^ 24 := by
  cases hud : p.mem.srcUd with
  | some ud =>
    obtain ⟨-, hentry, -⟩ := hp.srcUd ud hud
    have hlt := mvsBe24_lt (ofBytes ud) 15
    rw [buildUserdata, hud]
    dsimp only
    rw [be24_drop (by simp) (by omega), hentry]
    norm_num
    exact hlt
  | none =>
    by_cases h0 : 0 ≤ p.mem.entry
    · have hat : At (ofBytes (buildUserdata a p)) 0 (buildUserdata a p) := at_getD _ 0x00
      generalize ofBytes (buildUserdata a p) = b at hat ⊢
      rw [buildUserdata, hud] at hat
      have hfield := hat.left.left.right
      rw [if_pos h0, userdataHead_length, Nat.zero_add] at hfield
      rw [← emod_eq_iff, ← mvsBe24_at hfield]
    · have hnat := Int.natCast_nonneg (mvsBe24 (ofBytes (buildUserdata a p)) 15)
      constructor
      · intro heq
        omega
      · intro hrange
        omega

theorem buildUserdata_modlen (hp : p.mem.Ok) :
    (mvsBe24 (ofBytes (buildUserdata a p)) 10 : ℤ) = p.mem.modlen ↔ 0 ≤ p.mem.modlen ∧ p.mem.modlen < 2 ^ 24 := by
  cases hud : p.mem.srcUd with
  | some ud =>
    obtain ⟨-, -, hmodlen⟩ := hp.srcUd ud hud
    have hlt := mvsBe24_lt (ofBytes ud) 10
    rw [buildUserdata, hud]
    dsimp only
    rw [be24_drop (by simp) (by omega), hmodlen]
    norm_num
    exact hlt
  | none =>
    by_cases h0 : 0 ≤ p.mem.modlen
    · have hat : At (ofBytes (buildUserdata a p)) 0 (buildUserdata a p) := at_getD _ 0x00
      generalize ofBytes (buildUserdata a p) = b at hat ⊢
      rw [buildUserdata, hud] at hat
      have hhead : At b 0 (userdataHead a p) := hat.left.left.left
      rw [userdataHead] at hhead
      have hfield := hhead.right
      simp only [if_pos h0] at hfield
      rw [← emod_eq_iff, ← mvsBe24_at hfield.left]
      rfl
    · have hnat := Int.natCast_nonneg (mvsBe24 (ofBytes (buildUserdata a p)) 10)
      constructor
      · intro heq
        omega
      · intro hrange
        omega

theorem buildAliasUserdata_entry (hp : p.mem.Ok) {al : Ualias} (hal : al ∈ p.mem.aliases) :
    (mvsBe24 (ofBytes (buildAliasUserdata (buildUserdata a p) p.mem al)) 15 : ℤ) = al.entry ↔ 0 ≤ al.entry ∧ al.entry < 2 ^ 24 := by
  have hmud := buildUserdata_length (a := a) hp.sized
  have hat : At (ofBytes (buildAliasUserdata (buildUserdata a p) p.mem al)) 0 (buildAliasUserdata (buildUserdata a p) p.mem al) :=
    at_getD _ 0x00
  generalize ofBytes (buildAliasUserdata (buildUserdata a p) p.mem al) = b at hat ⊢
  rw [buildAliasUserdata] at hat
  cases hud : al.srcUd with
  | some ud =>
    obtain ⟨hlen, hentry⟩ := hp.aliasUd al hal ud hud
    have hlt := mvsBe24_lt (ofBytes ud) 15
    rw [hud] at hat
    have hbasic := hat.left.left.right
    rw [List.length_take, hmud] at hbasic
    have hget : ∀ k < 24, 3 ≤ k → b k = ofBytes ud k := by
      intro k hk h3
      have hk' : k - 3 < ((ud.drop 3).take 21).length := by
        simp [hlen, aliasUdLen]
        omega
      have hb := hbasic (k - 3) hk'
      have hsum : 0 + min 3 24 + (k - 3) = k := by omega
      rw [hsum] at hb
      rw [hb, List.getElem_take, List.getElem_drop, ofBytes, List.getD_eq_getElem _ _ (by rw [hlen, aliasUdLen]; omega)]
      congr 1
    have hbe : mvsBe24 b 15 = mvsBe24 (ofBytes ud) 15 := by
      rw [mvsBe24, mvsBe24, hget 15 (by omega) (by omega), hget 16 (by omega) (by omega), hget 17 (by omega) (by omega)]
    rw [hbe, hentry]
    norm_num
    exact hlt
  | none =>
    rw [hud] at hat
    have hfield := hat.left.left.left.left.right
    rw [List.length_take, hmud] at hfield
    rw [← emod_eq_iff, ← mvsBe24_at hfield]
    rfl

end Fields

section Restamp

variable {a a' : Attributes} {p p' : Uplaced}

@[simp] theorem ttr_length (q : ℕ × ℕ) : (ttr q).length = 3 := rfl

/-- The entry of a member whose user data was read. -/
theorem memberDent_restamped (hp : p.mem.Ok) (hud : p'.mem.srcUd = some (buildUserdata a p)) :
    Dent.bytes a' ⟨p'.mem.name, p', none⟩ =
      put (put (put (Dent.bytes a ⟨p.mem.name, p, none⟩) 0 p'.mem.name.toList) 8 (ttr p'.first)) 12 (ttr p'.text) := by
  have hlen := buildUserdata_length (a := a) hp.sized
  obtain ⟨t, rest, hmud, ht⟩ : ∃ t rest, buildUserdata a p = t ++ rest ∧ t.length = 3 :=
    ⟨_, _, (List.take_append_drop 3 _).symm, by rw [List.length_take, hlen]; rfl⟩
  have hnew : buildUserdata a' p' = ttr p'.text ++ rest := by
    rw [buildUserdata, hud, hmud]
    dsimp only
    rw [← ht, List.drop_left, ttr]
  have hold : Dent.bytes a ⟨p.mem.name, p, none⟩ = [] ++ p.mem.name.toList ++ (ttr p.first ++ 0x2C :: (t ++ rest)) := by
    simp [Dent.bytes, ttr, hmud]
  have hname : put (Dent.bytes a ⟨p.mem.name, p, none⟩) 0 p'.mem.name.toList = p'.mem.name.toList ++ ttr p.first ++ 0x2C :: (t ++ rest) := by
    rw [hold, put_middle (by simp) (by simp)]
    simp
  have hfirst : put (p'.mem.name.toList ++ ttr p.first ++ 0x2C :: (t ++ rest)) 8 (ttr p'.first) =
      p'.mem.name.toList ++ ttr p'.first ++ [0x2C] ++ t ++ rest := by
    rw [put_middle (by simp) (by simp)]
    simp
  rw [hname, hfirst, put_middle (by simp [ht]) (by simp)]
  simp [Dent.bytes, hnew, ttr]

/-- The entry of an alias whose user data was read. -/
theorem aliasDent_restamped (hp : p.mem.Ok) {al : Ualias} (al' : Ualias) (hal : al ∈ p.mem.aliases) (hname : al'.name = al.name)
    (hud : al'.srcUd = some (buildAliasUserdata (buildUserdata a p) p.mem al))
    (hmud : (buildUserdata a' p').take 3 = ttr p'.text) :
    Dent.bytes a' ⟨al'.name, p', some al'⟩ =
      put (put (put (Dent.bytes a ⟨al.name, p, some al⟩) 8 (ttr p'.first)) 12 (ttr p'.text)) 36 p'.mem.name.toList := by
  have hlen := buildAliasUserdata_length (a := a) hp.sized hal
  generalize haud : buildAliasUserdata (buildUserdata a p) p.mem al = aud at hud hlen
  obtain ⟨t, basic, n, rest, rfl, ht, hbasic, hn⟩ : ∃ t basic n rest, aud = t ++ basic ++ n ++ rest ∧ t.length = 3 ∧ basic.length = 21 ∧
      n.length = 8 := by
    refine ⟨aud.take 3, (aud.drop 3).take 21, (aud.drop 24).take 8, aud.drop 32, ?_, ?_, ?_, ?_⟩
    · have h32 : aud.drop 32 = (aud.drop 24).drop 8 := by rw [List.drop_drop]
      have h24 : aud.drop 24 = (aud.drop 3).drop 21 := by rw [List.drop_drop]
      rw [List.append_assoc, h32, List.take_append_drop, List.append_assoc, h24, List.take_append_drop, List.take_append_drop]
    · simp [hlen, aliasUdLen]
    · simp [hlen, aliasUdLen]
    · simp [hlen, aliasUdLen]
  have hnew : buildAliasUserdata (buildUserdata a' p') p'.mem al' = ttr p'.text ++ basic ++ p'.mem.name.toList ++ rest := by
    have h3 : (t ++ basic ++ n ++ rest).drop 3 = basic ++ (n ++ rest) := by
      rw [← ht]
      simp
    have h32 : (t ++ basic ++ n ++ rest).drop 32 = rest := by
      have : 32 = (t ++ basic ++ n).length := by simp [ht, hbasic, hn]
      rw [this, List.drop_left]
    rw [buildAliasUserdata, hud, hmud]
    dsimp only
    rw [h3, h32, ← hbasic, List.take_left]
  have hold : Dent.bytes a ⟨al.name, p, some al⟩ = al.name.toList ++ ttr p.first ++ 0xB1 :: (t ++ basic ++ n ++ rest) := by
    simp [Dent.bytes, ttr, haud]
  have hfirst : put (Dent.bytes a ⟨al.name, p, some al⟩) 8 (ttr p'.first) =
      al.name.toList ++ ttr p'.first ++ [0xB1] ++ t ++ (basic ++ n ++ rest) := by
    rw [hold, put_middle (by simp) (by simp)]
    simp
  have htext : put (al.name.toList ++ ttr p'.first ++ [0xB1] ++ t ++ (basic ++ n ++ rest)) 12 (ttr p'.text) =
      al.name.toList ++ ttr p'.first ++ [0xB1] ++ ttr p'.text ++ basic ++ n ++ rest := by
    rw [put_middle (by simp [ht]) (by simp)]
    simp
  rw [hfirst, htext, put_middle (by simp [hn]) (by simp [hbasic])]
  simp [Dent.bytes, hnew, ttr, hname]

theorem buildUserdata_ttr {ud : List UInt8} (hud : p'.mem.srcUd = some ud) : (buildUserdata a' p').take 3 = ttr p'.text := by
  have heq : buildUserdata a' p' = ttr p'.text ++ ud.drop 3 := by
    rw [buildUserdata, hud]
    rfl
  have hlen : 3 = (ttr p'.text).length := rfl
  rw [heq, hlen, List.take_left]

end Restamp

section Library

variable {a : Attributes} {blksize : ℕ} {ms : List Umember} {u : Unload}

theorem placeMembers_mem (cap : ℕ) {mem : List (Umember × List Lmblock)} (h : Head) {x : Umember × List Lmblock} (hx : x ∈ mem) :
    ∃ p ∈ placeMembers cap h mem, p.mem = x.1 := by
  induction mem generalizing h with
  | nil => exact absurd hx List.not_mem_nil
  | cons y mem ih =>
    rcases List.mem_cons.mp hx with rfl | hx
    · exact ⟨_, List.mem_cons_self, rfl⟩
    · obtain ⟨p, hp, hmem⟩ := ih _ hx
      exact ⟨p, List.mem_cons_of_mem _ hp, hmem⟩

/-- The bytes of an entry are in the block of its group. -/
theorem dirBlock_infix {g : List Dent} {d : Dent} (hd : d ∈ g) (last : Bool) : d.bytes a <:+: dirBlock a last g := by
  have hbytes : d.bytes a <:+: g.flatMap (Dent.bytes a) := by
    rw [List.flatMap_def]
    exact List.infix_of_mem_flatten (List.mem_map_of_mem hd)
  rw [dirBlock, dirBody]
  apply List.infix_append_of_infix_right
  apply List.infix_append_of_infix_left
  apply List.infix_append_of_infix_left
  exact List.infix_append_of_infix_right hbytes

theorem mem_of_mapM {parts : List (Umember × List Lmblock)}
    (h : (ms.mapM fun m => (splitMember m.bytes).map fun blk => (m, blk)) = some parts) {m : Umember} (hm : m ∈ ms) :
    ∃ blk, (m, blk) ∈ parts := by
  induction ms generalizing parts with
  | nil => exact absurd hm List.not_mem_nil
  | cons x ms ih =>
    rw [List.mapM_cons] at h
    obtain ⟨y, hy, hrest⟩ := Option.bind_eq_some_iff.mp h
    obtain ⟨ys, hys, heq⟩ := Option.bind_eq_some_iff.mp hrest
    obtain rfl : y :: ys = parts := Option.some.inj heq
    rcases List.mem_cons.mp hm with rfl | hm
    · obtain ⟨blk, -, rfl⟩ := Option.map_eq_some_iff.mp hy
      exact ⟨blk, List.mem_cons_self⟩
    · obtain ⟨blk, hblk⟩ := ih hys hm
      exact ⟨blk, List.mem_cons_of_mem _ hblk⟩

/-- Each entry of a library is in its directory. -/
theorem writeUnloadMem_entries (h : writeUnloadMem a blksize ms = some u) {m : Umember} (hm : m ∈ ms) :
    ∃ p, p.mem = m ∧ ∀ d ∈ dents p, ∃ blk ∈ u.directory, d.bytes a <:+: blk := by
  obtain ⟨parts, hparts, hemit⟩ := Option.bind_eq_some_iff.mp h
  obtain ⟨blk, hblk⟩ := mem_of_mapM hparts hm
  unfold emitUnload at hemit
  dsimp only at hemit
  split_ifs at hemit
  obtain ⟨groups, hgroups, rfl⟩ := Option.map_eq_some_iff.mp hemit
  have hsorted : (m, blk) ∈ parts.insertionSort fun m n => nameLe m.1.name n.1.name := (List.perm_insertionSort _ _).mem_iff.mpr hblk
  obtain ⟨p, hp, hmem⟩ := placeMembers_mem (trackCap (parts.insertionSort fun m n => nameLe m.1.name n.1.name).length) .start hsorted
  refine ⟨p, hmem, ?_⟩
  intro d hd
  unfold dirLayout at hgroups
  dsimp only at hgroups
  split_ifs at hgroups
  obtain rfl := Option.some.inj hgroups
  generalize placeMembers _ _ _ = placed at hp ⊢
  obtain ⟨init, last, heq, -, -, hflat⟩ := dirGroups_fit ((placed.flatMap dents).insertionSort fun d e => nameLe d.name e.name) [] 2 rfl (by omega)
  have hin : d ∈ (init ++ [last]).flatten := by
    rw [hflat, List.nil_append, (List.perm_insertionSort _ _).mem_iff]
    exact List.mem_flatMap.mpr ⟨p, hp, hd⟩
  obtain ⟨g, hg, hdg⟩ := List.mem_flatten.mp hin
  dsimp only
  rw [heq, directory_records]
  rcases List.mem_append.mp hg with hg | hg
  · exact ⟨_, List.mem_append_left _ (List.mem_map_of_mem hg), dirBlock_infix hdg false⟩
  · rw [List.mem_singleton] at hg
    subst hg
    exact ⟨_, List.mem_append_right _ (List.mem_singleton_self _), dirBlock_infix hdg true⟩

theorem splitMember_moduleBytes {bytes : List UInt8} {blk : List Lmblock} (h : splitMember bytes = some blk) :
    splitMember (moduleBytes bytes) = some blk := by
  have hmal : (Lmod.walkMember (ofBytes bytes) bytes.length).malformed = false := by
    unfold splitMember at h
    dsimp only at h
    split_ifs at h with hm
    simpa using hm
  rw [splitMember, moduleBytes, Lmod.walkMember_take hmal]
  exact h

end Library

/-- What is written of a member comes back, and can be written again. -/
def RoundTrips (a : Attributes) (blksize : ℕ) (m : Umember) (u : Unload) : Prop :=
  ∃ blk m', splitMember m.bytes = some blk ∧ readIebcopyMember (ofBytes u.bytes) u.bytes.length = .ok m' ∧
    ReadsBack a (placeMember (trackCap 1) .start m blk) m' ∧ PacksAgain a blksize (placeMember (trackCap 1) .start m blk) m'

section RoundTrip

variable {a : Attributes} {blksize : ℕ} {m m' : Umember} {p : Uplaced} {u : Unload} {blk : List Lmblock}

theorem writeUnloadMem_names (h : writeUnloadMem a blksize [m] = some u) : (m.name :: m.aliases.map Ualias.name).Nodup := by
  obtain ⟨parts, hparts, hemit⟩ := Option.bind_eq_some_iff.mp h
  rw [List.mapM_cons] at hparts
  obtain ⟨y, hy, hrest⟩ := Option.bind_eq_some_iff.mp hparts
  obtain ⟨blk, -, rfl⟩ := Option.map_eq_some_iff.mp hy
  obtain rfl : [(m, blk)] = parts := by simpa using hrest
  have hsort : ([(m, blk)].insertionSort fun m n => nameLe m.1.name n.1.name) = [(m, blk)] := rfl
  unfold emitUnload at hemit
  rw [hsort] at hemit
  dsimp only at hemit
  split_ifs at hemit
  obtain ⟨groups, hgroups, -⟩ := Option.map_eq_some_iff.mp hemit
  exact dirLayout_single.mp (Option.isSome_iff_exists.mpr ⟨groups, hgroups⟩)

/-- What was read can be packed, and its entries are those that were read. -/
theorem packsAgain (hp : p.mem.Ok) (hsplit : splitMember p.mem.bytes = some blk) (hfit : ∀ b ∈ blk, b.len ≤ blksize)
    (hnames : (p.mem.aliases.map Ualias.name).Nodup) (hbytes : m'.bytes = moduleBytes p.mem.bytes) (hud : m'.srcUd = some (buildUserdata a p))
    (hal : m'.aliases.Perm (p.mem.aliases.map (aliasBack a p))) : PacksAgain a blksize p m' := by
  have hback : (m'.aliases.map Ualias.name).Perm (p.mem.aliases.map Ualias.name) := by
    have hmap := hal.map Ualias.name
    rwa [List.map_map] at hmap
  constructor
  · intro a' n hn
    have hnodup : (n :: m'.aliases.map Ualias.name).Nodup := by
      rw [List.nodup_cons, hback.nodup_iff, hback.mem_iff]
      refine ⟨?_, hnames⟩
      intro hin
      obtain ⟨al, hal, heq⟩ := List.mem_map.mp hin
      exact hn al hal heq
    have hmapM : ([{ m' with name := n }].mapM fun m => (splitMember m.bytes).map fun blk => (m, blk)) = some [({ m' with name := n }, blk)] := by
      simp [hbytes, splitMember_moduleBytes hsplit]
    rw [writeUnloadMem, hmapM]
    exact emitUnload_single a' blksize { m' with name := n } blk hnodup hfit
  · intro a' blksize' n ms u hin hwrite
    obtain ⟨p', hmem, hentries⟩ := writeUnloadMem_entries hwrite hin
    have hud' : p'.mem.srcUd = some (buildUserdata a p) := by rw [hmem]; exact hud
    have hname' : p'.mem.name = n := by rw [hmem]
    refine ⟨p'.first, p'.text, ?_, ?_⟩
    · have hdent := hentries _ List.mem_cons_self
      rw [memberDent_restamped hp hud', hname'] at hdent
      exact hdent
    · intro al hmemal
      have hinal : aliasBack a p al ∈ p'.mem.aliases := by
        rw [hmem, hal.mem_iff]
        exact List.mem_map_of_mem hmemal
      have hdent := hentries ⟨al.name, p', some (aliasBack a p al)⟩ (List.mem_cons_of_mem _ (List.mem_map.mpr ⟨_, hinal, rfl⟩))
      have hstamp : Dent.bytes a' ⟨al.name, p', some (aliasBack a p al)⟩ = _ :=
        aliasDent_restamped hp (aliasBack a p al) hmemal rfl rfl (buildUserdata_ttr hud')
      rw [hname'] at hstamp
      rw [← hstamp]
      exact hdent

/-- A member and its aliases are read back as they were if the directory has room for their addresses. -/
theorem roundTrips_iff (hm : m.Ok) (hb : blksize ≤ 32740) (h : writeUnloadMem a blksize [m] = some u) :
    RoundTrips a blksize m u ↔ m.InRange := by
  obtain ⟨blk, hsplit, al, hal, hread⟩ := read_single hm (by omega) h
  obtain ⟨blk', hsplit', hfit, -⟩ := writeUnloadMem_single h
  obtain rfl : blk' = blk := Option.some.inj (hsplit'.symm.trans hsplit)
  have hnames := writeUnloadMem_names h
  generalize hplaced : placeMember (trackCap 1) .start m blk' = p at hal hread
  have hmem : p.mem = m := by rw [← hplaced]; rfl
  have hp : p.mem.Ok := by rw [hmem]; exact hm
  have hentry := buildUserdata_entry (a := a) hp
  have hmodlen := buildUserdata_modlen (a := a) hp
  constructor
  · rintro ⟨blk, m', hblk, hok, hback, -⟩
    obtain rfl : blk = blk' := Option.some.inj (hblk.symm.trans hsplit)
    rw [hplaced] at hback
    obtain rfl := Except.ok.inj (hread.symm.trans hok)
    rw [← hmem]
    refine ⟨hentry.mp hback.entry, hmodlen.mp hback.modlen, ?_⟩
    intro x hx
    have hin : (⟨x.name, x.entry, some (buildAliasUserdata (buildUserdata a p) p.mem x)⟩ : Ualias) ∈ al :=
      hback.aliases.mem_iff.mpr (List.mem_map.mpr ⟨x, hx, rfl⟩)
    rw [hal.mem_iff] at hin
    obtain ⟨y, hy, heq⟩ := List.mem_map.mp hin
    have hname : (aliasBack a p y).name = x.name := by rw [heq]
    have hxy : y = x := List.inj_on_of_nodup_map (List.nodup_cons.mp hnames).2 hy (hmem ▸ hx) hname
    subst hxy
    have hentry' : (aliasBack a p y).entry = y.entry := by rw [heq]
    exact (buildAliasUserdata_entry hp hx).mp hentry'
  · intro hrange
    rw [← hmem] at hrange
    refine ⟨blk', _, hsplit, hread, ?_, ?_⟩
    · rw [hplaced]
      refine ⟨by rw [hmem], by rw [hmem], hentry.mpr hrange.entry, hmodlen.mpr hrange.modlen, rfl, ?_⟩
      have hmap : m.aliases.map (aliasBack a p) =
          p.mem.aliases.map fun al => ⟨al.name, al.entry, some (buildAliasUserdata (buildUserdata a p) p.mem al)⟩ := by
        rw [hmem]
        apply List.map_congr_left
        intro x hx
        have hx' : x ∈ p.mem.aliases := by rw [hmem]; exact hx
        have hxentry := (buildAliasUserdata_entry (a := a) hp hx').mpr (hrange.aliases x hx')
        rw [aliasBack, hxentry, hmem]
      exact hal.trans (List.Perm.of_eq hmap)
    · rw [hplaced]
      exact packsAgain hp (by rw [hmem]; exact hsplit) hfit (by rw [hmem]; exact (List.nodup_cons.mp hnames).2) (by rw [hmem]) rfl (by rw [hmem]; exact hal)

end RoundTrip

/-- A module of one section of the given length, with eight bytes of text. -/
def shortText (len : ℤ) : List UInt8 :=
  [0x20, 0x00, 0x00, 0x00, 0x00, 0x01, 0x00, 0x10] ++ (letterName 0xC1).toList ++ [0x00, 0x00, 0x00, 0x00, 0x01] ++ mvsPut24 len ++
    [0x0D, 0x00, 0x00, 0x00, 0x00, 0x04, 0x00, 0x00, 0x06, 0x00, 0x00, 0x00, 0x40, 0x00, 0x00, 0x08, 0x00, 0x01, 0x00, 0x08] ++
    [0x07, 0xFE, 0x00, 0x00, 0x00, 0x00, 0x00, 0x00]

theorem shortText_written (entry modlen : ℤ) {len : ℤ} {al : List Ualias}
    (hsplit : splitMember (shortText len) = some [⟨0, 24, false⟩, ⟨24, 20, false⟩, ⟨44, 8, true⟩]) (hnames : (letterName 0xC1 :: al.map Ualias.name).Nodup) (a : Attributes) :
    ∃ u, writeUnloadMem a 1024 [⟨letterName 0xC1, shortText len, entry, modlen, none, al⟩] = some u := by
  have hmapM : ([(⟨letterName 0xC1, shortText len, entry, modlen, none, al⟩ : Umember)].mapM fun m => (splitMember m.bytes).map fun blk => (m, blk)) =
      some [(⟨letterName 0xC1, shortText len, entry, modlen, none, al⟩, [⟨0, 24, false⟩, ⟨24, 20, false⟩, ⟨44, 8, true⟩])] := by
    simp [hsplit]
  rw [writeUnloadMem, hmapM]
  exact Option.isSome_iff_exists.mp (emitUnload_single a 1024 ⟨letterName 0xC1, shortText len, entry, modlen, none, al⟩
    [⟨0, 24, false⟩, ⟨24, 20, false⟩, ⟨44, 8, true⟩] hnames (by decide))

def shortMember : Umember := ⟨letterName 0xC1, shortText 8, 0, 8, none, [⟨letterName 0xC2, 4, none⟩]⟩

theorem shortMember_roundTrips : ∃ u, writeUnloadMem ⟨0, false, false, false, false, false⟩ 1024 [shortMember] = some u ∧
    RoundTrips ⟨0, false, false, false, false, false⟩ 1024 shortMember u := by
  obtain ⟨u, hu⟩ : ∃ u, writeUnloadMem ⟨0, false, false, false, false, false⟩ 1024 [shortMember] = some u :=
    shortText_written 0 8 (by decide) (by decide) _
  have hok : shortMember.Ok := ⟨by decide, by decide, nofun, by simp [shortMember]⟩
  exact ⟨u, hu, (roundTrips_iff hok (by decide) hu).mpr ⟨by decide, by decide, by decide⟩⟩

/-- A member whose section is one byte short of sixteen megabytes is given the length zero. -/
theorem sixteenMegabytes_lost : ∃ m u, bareMember (shortText 0xFFFFFF) (letterName 0xC1) none = some m ∧
    writeUnloadMem ⟨0, false, false, false, false, false⟩ 1024 [m] = some u ∧
    ¬ RoundTrips ⟨0, false, false, false, false, false⟩ 1024 m u := by
  have hbare : bareMember (shortText 0xFFFFFF) (letterName 0xC1) none = some ⟨letterName 0xC1, shortText 0xFFFFFF, 0, 2 ^ 24, none, []⟩ := by
    decide
  obtain ⟨u, hu⟩ : ∃ u, writeUnloadMem ⟨0, false, false, false, false, false⟩ 1024
      [⟨letterName 0xC1, shortText 0xFFFFFF, 0, 2 ^ 24, none, []⟩] = some u := shortText_written 0 (2 ^ 24) (by decide) (by decide) _
  refine ⟨_, u, hbare, hu, ?_⟩
  rintro ⟨blk, m', hblk, hread, hback, -⟩
  have hok : Umember.Ok ⟨letterName 0xC1, shortText 0xFFFFFF, 0, 2 ^ 24, none, []⟩ := .plain (by decide) rfl rfl
  obtain ⟨blk', hblk', al, -, hread'⟩ := read_single hok (by decide) hu
  obtain rfl : blk' = blk := Option.some.inj (hblk'.symm.trans hblk)
  obtain rfl := Except.ok.inj (hread'.symm.trans hread)
  have hrange := (buildUserdata_modlen (p := placeMember (trackCap 1) .start ⟨letterName 0xC1, shortText 0xFFFFFF, 0, 2 ^ 24, none, []⟩ blk') hok).mp hback.modlen
  have hlt : (2 ^ 24 : ℤ) < 2 ^ 24 := hrange.2
  exact absurd hlt (lt_irrefl _)

end Cc370.Ld370
