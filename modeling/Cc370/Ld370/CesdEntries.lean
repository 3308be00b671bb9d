import Cc370.Ld370.RecordStream
import Cc370.Ld370.Bare
import Cc370.Directory

namespace Cc370.Ld370

open Lmod Slices

section Numbers

theorem numberSections_gids (base : ℕ → ℤ) (G : List Gsym) (a : ℕ) :
    (((numberSections base G a).1.filter Gsym.isSect).map Gsym.gid = List.range' (a + 1) (G.countP Gsym.isSect)) ∧
      (numberSections base G a).2 = a + G.countP Gsym.isSect ∧
      (numberSections base G a).1.countP (fun g => !g.isSect) = G.countP fun g => !g.isSect := by
  induction G generalizing a with
  | nil => simp [numberSections]
  | cons g G ih =>
    rw [numberSections]
    by_cases hs : g.isSect = true
    · obtain ⟨hg, hn, hc⟩ := ih (a + 1)
      rw [if_pos hs]
      refine ⟨?_, ?_, ?_⟩
      · simp [hs, hg, List.range'_succ]
      · simp only [hn, List.countP_cons_of_pos hs]
        omega
      · simp [hs, hc]
    · obtain ⟨hg, hn, hc⟩ := ih a
      rw [if_neg hs]
      simp [hs, hg, hn, hc]

theorem numberOthers_gids (G : List Gsym) (b : ℕ) : (numberOthers G b).filter Gsym.isSect = G.filter Gsym.isSect ∧
    ((numberOthers G b).filter fun g => !g.isSect).map Gsym.gid = List.range' (b + 1) (G.countP fun g => !g.isSect) := by
  induction G generalizing b with
  | nil => simp [numberOthers]
  | cons g G ih =>
    rw [numberOthers]
    by_cases hs : g.isSect = true
    · obtain ⟨h₁, h₂⟩ := ih b
      simp [hs, h₁, h₂]
    · obtain ⟨h₁, h₂⟩ := ih (b + 1)
      simp [hs, h₁, h₂, List.range'_succ]

/-- The ESDIDs are the numbers from 1 on. -/
theorem gids_perm (O : List Obj) (s : Composite) :
    ((assignAddresses O s).G.map Gsym.gid).Perm (List.range' 1 (assignAddresses O s).G.length) := by
  set base := objectBase (placed O s)
  set H := (placeCommons (moveSections (placed O s) s.G) (base (placed O s).length)).1
  obtain ⟨hsect, hnext, hrest⟩ := numberSections_gids base H 0
  obtain ⟨hkeep, hothers⟩ := numberOthers_gids (numberSections base H 0).1 (numberSections base H 0).2
  have hG : (assignAddresses O s).G = numberOthers (numberSections base H 0).1 (numberSections base H 0).2 := rfl
  rw [← hG] at hkeep hothers
  generalize (assignAddresses O s).G = G at hkeep hothers ⊢
  have hgids : ((G.filter Gsym.isSect ++ G.filter fun g => !g.isSect).map Gsym.gid) =
      List.range' 1 (H.countP Gsym.isSect + H.countP fun g => !g.isSect) := by
    rw [List.map_append, hkeep, hothers, hsect, hnext, hrest, ← List.range'_append_1]
    congr 2
    omega
  have hperm := List.filter_append_perm Gsym.isSect G
  have hlen : G.length = H.countP Gsym.isSect + H.countP fun g => !g.isSect := by
    have hcount := congrArg List.length hgids
    rw [List.length_map, List.length_range', hperm.length_eq] at hcount
    exact hcount
  rw [hlen, ← hgids]
  exact (hperm.map Gsym.gid).symm

/-- The composite symbols in the order of their ESDIDs are the composite symbols. -/
theorem byGid_perm (O : List Obj) (s : Composite) : (byGid (assignAddresses O s).G).Perm (assignAddresses O s).G := by
  have hgids := gids_perm O s
  generalize (assignAddresses O s).G = G at hgids ⊢
  have hnodup : (G.map Gsym.gid).Nodup := hgids.nodup_iff.mpr List.nodup_range'
  have hfind : ∀ g ∈ G, gAt G (G.findIdx fun g' => g'.gid = g.gid) = g := by
    intro g hg
    have hlt : (G.findIdx fun g' => g'.gid = g.gid) < G.length := List.findIdx_lt_length_of_exists ⟨g, hg, by simp⟩
    have heq : (gAt G (G.findIdx fun g' => g'.gid = g.gid)).gid = g.gid := by
      rw [gAt_eq hlt]
      simpa using List.findIdx_getElem (w := hlt)
    refine List.inj_on_of_nodup_map hnodup ?_ hg heq
    rw [gAt_eq hlt]
    exact List.getElem_mem _
  have hmap : ((G.map Gsym.gid).map fun gid => gAt G (G.findIdx fun g => g.gid = gid)) = G := by
    rw [List.map_map]
    conv_rhs => rw [← List.map_id G]
    apply List.map_congr_left
    intro g hg
    exact hfind g hg
  have hperm := hgids.symm.map fun gid => gAt G (G.findIdx fun g => g.gid = gid)
  rw [hmap] at hperm
  exact hperm

end Numbers

theorem toChunks_flatten {α : Type} {n : ℕ} (hn : 0 < n) (xs : List α) : (xs.toChunks n).flatten = xs := by
  have hgo (xs : List α) (acc₁ : Array α) (acc₂ : Array (List α)) :
      (List.toChunks.go n xs acc₁ acc₂).flatten = acc₂.toList.flatten ++ acc₁.toList ++ xs := by
    induction xs generalizing acc₁ acc₂ with
    | nil => simp [List.toChunks.go]
    | cons y ys ih =>
      unfold List.toChunks.go
      split_ifs
      · simp [ih]
      · simp [ih]
  cases xs with
  | nil => simp [List.toChunks]
  | cons x xs =>
    cases n with
    | zero => omega
    | succ n =>
      rw [List.toChunks]
      · simp [hgo]
      · simp

section Walk

variable {G : List Gsym} {b : Buffer}

def cesdRecord (G : List Gsym) (c : List Gsym × ℕ) : List UInt8 :=
  [0x20, 0, 0, 0] ++ mvsPut16 (15 * c.2 + 1) ++ mvsPut16 (16 * c.1.length) ++ c.1.flatMap (cesdEntry G)

theorem cesdRecord_length (c : List Gsym × ℕ) : (cesdRecord G c).length = 8 + 16 * c.1.length := by
  have hlen : (c.1.flatMap (cesdEntry G)).length = 16 * c.1.length := by
    simp [List.length_flatMap, cesdEntry_length, mul_comm]
  rw [cesdRecord, List.length_append, hlen]
  rfl

theorem starts_even {es : List (List UInt8)} (h : ∀ e ∈ es, e.length = 16) (p : ℕ) :
    starts p es = (List.range es.length).map fun k => p + 16 * k := by
  induction es generalizing p with
  | nil => rfl
  | cons e es ih =>
    rw [starts, h e List.mem_cons_self, ih (fun x hx => h x (List.mem_cons_of_mem _ hx)), List.length_cons, List.range_succ_eq_map,
      List.map_cons, List.map_map]
    congr 1
    apply List.map_congr_left
    intro k _
    simp only [Function.comp_apply]
    omega

theorem cesdOffsets_record {c : List Gsym × ℕ} {off n : ℕ} (hat : At b off (cesdRecord G c)) (hn : off + (cesdRecord G c).length ≤ n) :
    List.Forall₂ (At b) (cesdOffsets n ⟨.cesd, off, (cesdRecord G c).length, 0⟩) (c.1.map (cesdEntry G)) := by
  have hlen := cesdRecord_length (G := G) c
  have heven : ∀ e ∈ c.1.map (cesdEntry G), e.length = 16 := by
    intro e he
    obtain ⟨g, -, rfl⟩ := List.mem_map.mp he
    exact cesdEntry_length G g
  have hoffs : cesdOffsets n ⟨.cesd, off, (cesdRecord G c).length, 0⟩ = starts (off + 8) (c.1.map (cesdEntry G)) := by
    have hcount : (min (cesdRecord G c).length (n - off) - 8) / 16 = c.1.length := by omega
    rw [cesdOffsets, starts_even heven, List.length_map]
    dsimp only
    rw [hcount]
  have hentries := hat.right
  rw [List.flatMap_def] at hentries
  rw [hoffs]
  exact at_starts hentries

theorem cesdOffsets_records {cs : List (List Gsym × ℕ)} {off n : ℕ} (hat : At b off (cs.flatMap (cesdRecord G)))
    (hn : off + (cs.flatMap (cesdRecord G)).length ≤ n) :
    List.Forall₂ (At b) ((blockItems off (cs.map fun c => ⟨.cesd, cesdRecord G c, []⟩)).flatMap (cesdOffsets n))
      ((cs.flatMap Prod.fst).map (cesdEntry G)) := by
  induction cs generalizing off with
  | nil => exact .nil
  | cons c cs ih =>
    rw [List.flatMap_cons] at hat hn
    rw [List.length_append] at hn
    have hbytes : (⟨.cesd, cesdRecord G c, []⟩ : Block).bytes = cesdRecord G c := List.append_nil _
    rw [List.map_cons, blockItems, hbytes, List.flatMap_append, List.flatMap_cons, List.map_append]
    refine List.rel_append ?_ (ih hat.right (by omega))
    have hitems : (⟨.cesd, cesdRecord G c, []⟩ : Block).items off = [⟨.cesd, off, (cesdRecord G c).length, 0⟩] := rfl
    rw [hitems, List.flatMap_singleton]
    exact cesdOffsets_record hat.left (by omega)

theorem cesdRecords_eq (G : List Gsym) : cesdRecords G = (((byGid G).toChunks 15).zipIdx).map (cesdRecord G) := rfl

theorem blockItems_kind {bs : List Block} {k : Kind} (h : ∀ b ∈ bs, b.kind = k ∧ b.text = []) (off : ℕ) :
    ∀ r ∈ blockItems off bs, r.kind = k := by
  induction bs generalizing off with
  | nil => exact nofun
  | cons x bs ih =>
    obtain ⟨hk, ht⟩ := h x List.mem_cons_self
    intro r hr
    rcases List.mem_append.mp hr with hr | hr
    · rw [Block.items, if_pos ht, List.mem_singleton] at hr
      rw [hr]
      exact hk
    · exact ih (fun y hy => h y (List.mem_cons_of_mem _ hy)) _ r hr

theorem blocks_long {bs : List Block} (h : ∀ b ∈ bs, b.Framed) : 2 * bs.length ≤ (bs.flatMap Block.bytes).length := by
  induction bs with
  | nil => simp
  | cons x bs ih =>
    have h8 := (h x List.mem_cons_self).1
    have hrest := ih fun y hy => h y (List.mem_cons_of_mem _ hy)
    rw [List.flatMap_cons, List.length_append, Block.bytes, List.length_append, List.length_cons]
    omega

/-- The first records of a member are those of the CESD, and an IDR record follows. -/
theorem member_leading (L : Layout) (opt : Options) (ident : LkedIdent) :
    ((walkMember (ofBytes (L.member opt ident)) (L.member opt ident).length).items.takeWhile fun r => r.kind = .sym ∨ r.kind = .cesd) =
      blockItems 0 ((cesdRecords L.G).map fun h => ⟨.cesd, h, []⟩) := by
  set cesd : List Block := (cesdRecords L.G).map fun h => ⟨.cesd, h, []⟩
  set idr : Block := ⟨.idr, spzapIdr, []⟩
  have hcesd : ∀ x ∈ cesd, x.kind = .cesd ∧ x.text = [] := by
    intro x hx
    obtain ⟨h, -, rfl⟩ := List.mem_map.mp hx
    exact ⟨rfl, rfl⟩
  obtain ⟨rest, hbytes⟩ : ∃ rest, L.member opt ident = (cesd ++ [idr]).flatMap Block.bytes ++ rest := by
    refine ⟨((⟨.idr, lkedIdr ident, []⟩ : Block) :: (L.textBlocks opt ++ L.rldBlocks)).flatMap Block.bytes, ?_⟩
    rw [Layout.member_eq, ← List.flatMap_append]
    simp [Layout.blocks, cesd, idr]
  have hframed : ∀ x ∈ cesd ++ [idr], x.Framed := by
    intro x hx
    rcases List.mem_append.mp hx with hx | hx
    · obtain ⟨h, hh, rfl⟩ := List.mem_map.mp hx
      exact cesd_framed hh
    · rw [List.mem_singleton.mp hx]
      exact spzap_framed
  have hends : ∀ x ∈ cesd ++ [idr], x.ends = false := by
    intro x hx
    have hk : x.kind ≠ .ctl := by
      rcases List.mem_append.mp hx with hx | hx
      · rw [(hcesd x hx).1]
        decide
      · rw [List.mem_singleton.mp hx]
        decide
    simp [Block.ends, hk]
  have hlong := blocks_long hframed
  have hfuel := Nat.le_succ_of_le (hlong.trans (List.prefix_append _ rest).length_le)
  obtain ⟨more, hmore⟩ := walk_leading hframed hends [] rest hfuel
  rw [List.nil_append, ← hbytes] at hmore
  have hitems : (walkMember (ofBytes (L.member opt ident)) (L.member opt ident).length).items = _ := hmore
  have hkinds : ∀ r ∈ blockItems 0 cesd, decide (r.kind = .sym ∨ r.kind = .cesd) = true := by
    intro r hr
    simp [blockItems_kind hcesd 0 r hr]
  rw [hitems, List.length_nil, blockItems_append, List.append_assoc, List.takeWhile_append_of_pos hkinds]
  simp [blockItems, Block.items, idr]

/-- What the CESD says of a composite symbol. -/
structure EsdOf (G : List Gsym) (e : Lmod.Esd) (g : Gsym) : Prop where
  name : e.name = g.name
  type : e.type = g.type.code % 16
  section_ : g.isSect = true → (e.addr : ℤ) = g.org % 16777216 ∧ (e.len : ℤ) = g.len % 16777216
  label : g.isSect = false → g.type = .lr → (e.addr : ℤ) = ((g.owner.map (gAt G)).elim 0 Gsym.org + g.inAddr) % 16777216

theorem cesdEntry_at {p : ℕ} {g : Gsym} (hat : At b p (cesdEntry G g)) (k : ℕ) :
    EsdOf G ⟨nameAt b p, (b (p + 8)).toNat % 16, k + 1, (b (p + 12)).toNat, mvsBe24 b (p + 9), mvsBe24 b (p + 13)⟩ g := by
  rw [cesdEntry, at_append, at_append] at hat
  obtain ⟨⟨hname, htype⟩, hrest⟩ := hat
  have h8 : b (p + 8) = UInt8.ofNat g.type.code := by simpa using htype 0 (by simp)
  have hplace : p + (g.name.toList ++ [UInt8.ofNat g.type.code]).length = p + 9 := by simp
  rw [hplace] at hrest
  refine ⟨nameAt_at hname, ?_, ?_, ?_⟩
  · rw [h8, UInt8.toNat_ofNat']
    exact Nat.mod_mod_of_dvd _ (by decide)
  · intro hs
    rw [if_pos hs] at hrest
    exact ⟨mvsBe24_at hrest.left.left, mvsBe24_at hrest.right⟩
  · intro hs ht
    rw [if_neg (by simp [hs]), if_pos ht] at hrest
    exact mvsBe24_at hrest.left.left

theorem forall₂_zipIdx {α β γ : Type} {R : α → β → Prop} {S : γ → β → Prop} {f : α × ℕ → γ} {xs : List α} {ys : List β}
    (h : List.Forall₂ R xs ys) (hf : ∀ x y k, R x y → S (f (x, k)) y) (k : ℕ) : List.Forall₂ S ((xs.zipIdx k).map f) ys := by
  induction h generalizing k with
  | nil => exact .nil
  | cons hxy _ ih => exact .cons (hf _ _ k hxy) (ih (k + 1))

/-- The CESD of a member has an entry for each composite symbol. -/
theorem cesdWalk_member (L : Layout) (opt : Options) (ident : LkedIdent) :
    List.Forall₂ (EsdOf L.G) (cesdWalk (ofBytes (L.member opt ident)) (L.member opt ident).length) (byGid L.G) := by
  set cs := ((byGid L.G).toChunks 15).zipIdx
  have hblocks : ((cesdRecords L.G).map fun h => (⟨.cesd, h, []⟩ : Block)) = cs.map fun c => ⟨.cesd, cesdRecord L.G c, []⟩ := by
    rw [cesdRecords_eq, List.map_map]
    rfl
  have hsyms : cs.flatMap Prod.fst = byGid L.G := by
    rw [List.flatMap_def, List.zipIdx_map_fst, toChunks_flatten (by decide)]
  have hkinds : ∀ r ∈ blockItems 0 (cs.map fun c => (⟨.cesd, cesdRecord L.G c, []⟩ : Block)), r.kind = .cesd := by
    apply blockItems_kind
    intro x hx
    obtain ⟨c, -, rfl⟩ := List.mem_map.mp hx
    exact ⟨rfl, rfl⟩
  obtain ⟨rest, hmember⟩ : ∃ rest, L.member opt ident = cs.flatMap (cesdRecord L.G) ++ rest := by
    rw [Layout.member, cesdRecords_eq, ← List.flatMap_def, List.append_assoc, List.append_assoc, List.append_assoc]
    exact ⟨_, rfl⟩
  have hat : At (ofBytes (L.member opt ident)) 0 (L.member opt ident) := at_getD _ 0x00
  have hroom : 0 + (cs.flatMap (cesdRecord L.G)).length ≤ (L.member opt ident).length := by
    rw [hmember, Nat.zero_add]
    exact (List.prefix_append _ _).length_le
  have hcesd : At (ofBytes (L.member opt ident)) 0 (cs.flatMap (cesdRecord L.G)) := by
    generalize ofBytes (L.member opt ident) = b at hat
    rw [hmember] at hat
    exact hat.left
  have hoffs := cesdOffsets_records hcesd hroom
  rw [hsyms] at hoffs
  have hfilter := List.filter_eq_self.mpr fun r hr => decide_eq_true (hkinds r hr)
  rw [cesdWalk]
  dsimp only
  rw [member_leading, hblocks, hfilter]
  rw [List.forall₂_map_right_iff] at hoffs
  exact forall₂_zipIdx hoffs (fun x g k hx => cesdEntry_at hx k) 0

end Walk

end Cc370.Ld370
