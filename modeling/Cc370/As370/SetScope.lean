import Cc370.As370.SetSymbols

namespace Cc370.As370

section Rows

variable {rows : List SetRow} {base : List Char} {f : SetRow → SetRow}

theorem rowFind_name {r : SetRow} (h : rowFind rows base = some r) : r.name = base := by
  simpa using List.find?_some h

/-- A row is changed, or made, under its own name; the other rows stay. -/
theorem rowFind_rowPut (hf : ∀ r, (f r).name = r.name) (n : List Char) :
    rowFind (rowPut base f rows) n =
      if n = base then some (f ((rowFind rows base).getD (.fresh base))) else rowFind rows n := by
  induction rows with
  | nil =>
    by_cases h : n = base
    · simp [rowPut, rowFind, hf, SetRow.fresh, h]
    · simp [rowPut, rowFind, hf, SetRow.fresh, h, Ne.symm h]
  | cons r rows ih =>
    simp only [rowFind] at ih
    by_cases hr : r.name = base
    · by_cases h : n = base
      · simp [rowPut, rowFind, hf, hr, h]
      · simp [rowPut, rowFind, hf, hr, h, Ne.symm h]
    · by_cases hn : r.name = n
      · have hne : n ≠ base := fun h => hr (hn.trans h)
        simp [rowPut, rowFind, hr, hn, hne]
      · simp [rowPut, rowFind, hr, hn, ih]

theorem put_name (r : SetRow) (k : Option ℤ) (v : List Char) : (r.put k v).name = r.name := by
  rcases k with _ | idx
  · rfl
  · rw [SetRow.put]
    split_ifs <;> rfl

theorem put_islcl (r : SetRow) (k : Option ℤ) (v : List Char) : (r.put k v).islcl = r.islcl := by
  rcases k with _ | idx
  · rfl
  · rw [SetRow.put]
    split_ifs <;> rfl

end Rows

/-- What a source says of a name. -/
structure SetDecl where
  isg : Bool
  ty : SetType
  arr : Bool
deriving DecidableEq

/-- The declaration of a name in a source, at any position of its operand lists. -/
def declOf (src : List DeclCard) (n : List Char) : Option SetDecl :=
  ((src.flatMap fun card => card.fields.map fun f => (baseOf f, (⟨card.isg, card.ty, '(' ∈ f⟩ : SetDecl))).find?
    fun p => p.1 = n).map Prod.snd

/-- A scalar is used without a subscript, an array with one in range. -/
def SetDecl.Fits (d : SetDecl) : Option ℤ → Prop
  | none => d.arr = false
  | some idx => d.arr = true ∧ 1 ≤ idx ∧ idx ≤ 1000000

/-- The cell of a name: one for all contexts, or one of a context's own. -/
inductive SetCell
  | global (n : List Char) (k : Option ℤ)
  | own (i : ℕ) (n : List Char) (k : Option ℤ)
deriving DecidableEq

section Spec

variable (src : ℕ → List DeclCard)

def cellOf (i : ℕ) (n : List Char) (k : Option ℤ) : SetCell :=
  if (declOf (src i) n).any SetDecl.isg then .global n k else .own i n k

/-- The value last assigned to a cell, cut at 255 characters. -/
def lastVal (tr : List SetEvent) (cell : SetCell) : Option (List Char) :=
  tr.foldl (fun acc e =>
    match e with
    | .set i n k v => if cellOf src i n k = cell then some (v.take 255) else acc
    | _ => acc) none

/-- Some context has performed a GBLx for the name. -/
def Marked (tr : List SetEvent) (n : List Char) : Prop := ∃ i ty f, SetEvent.decl i true ty f ∈ tr ∧ baseOf f = n

/-- The context has performed its LCLx for the name. -/
def Pinned (tr : List SetEvent) (i : ℕ) (n : List Char) : Prop := ∃ ty f, SetEvent.decl i false ty f ∈ tr ∧ baseOf f = n

/-- The arrays that a context has declared, in order. -/
def arraysOf (tr : List SetEvent) (i : ℕ) : List (List Char × Bool) :=
  tr.filterMap fun e =>
    match e with
    | .decl j _ ty f => if j = i ∧ '(' ∈ f then some (baseOf f, decide (ty ≠ .c)) else none
    | _ => none

/-- A statement of the program: what is performed is declared so in the source of its context, and
what is assigned is declared. -/
def Legal : SetEvent → Prop
  | .enter => True
  | .decl i isg ty f => declOf (src i) (baseOf f) = some ⟨isg, ty, '(' ∈ f⟩
  | .set i n k _ => ∃ d, declOf (src i) n = some d ∧ d.Fits k

/-- The declaration that decides about the name has been performed: for a global name some GBLx,
for a local one that is global elsewhere its own LCLx. -/
def Routed (tr : List SetEvent) (i : ℕ) (n : List Char) (d : SetDecl) : Prop :=
  if d.isg then Marked tr n else Pinned tr i n ∨ ¬ Marked tr n

/-- The next step meets the declarations performed before it: an assignment is routed, and an LCLx
comes before the assignments to its name. -/
def Orderly (tr : List SetEvent) : SetEvent → Prop
  | .enter => True
  | .decl i isg _ f => isg = false → '(' ∉ f → lastVal src tr (.own i (baseOf f) none) = none
  | .set i n _ _ => ∀ d, declOf (src i) n = some d → Routed tr i n d

/-- The sources agree about their global names. -/
def Agreed : Prop := ∀ i j n d d', declOf (src i) n = some d → declOf (src j) n = some d' →
  d.isg = true → d'.isg = true → d = d'

end Spec

/-- A row holds the values last assigned to a name. -/
def RowOk (d : SetDecl) (last : Option ℤ → Option (List Char)) : Option SetRow → Prop
  | none => ∀ k, d.Fits k → last k = none
  | some r => if d.arr then ∀ idx, d.Fits (some idx) → r.slot (some idx) = last (some idx)
      else r.elem = none ∧ r.val = (last none).getD d.ty.initial

section RowOk

variable {d : SetDecl} {last last' : Option ℤ → Option (List Char)} {row : Option SetRow} {n : List Char} {k : Option ℤ}

theorem RowOk.congr (h : RowOk d last row) (hl : ∀ k, last' k = last k) : RowOk d last' row := by
  rwa [show last' = last from funext hl]

/-- What is read is the value last assigned, or else the default. -/
theorem RowOk.read (h : RowOk d last row) (hk : d.Fits k) {default : List Char}
    (hdef : last k = none → default = d.ty.initial) :
    (row.bind fun r => r.slot k).getD default = (last k).getD d.ty.initial := by
  rcases row with _ | r
  · rw [h k hk]
    exact hdef (h k hk)
  · rw [RowOk] at h
    rcases k with _ | idx
    · have harr : d.arr = false := hk
      rw [harr, if_neg (by simp)] at h
      rw [Option.bind_some, SetRow.slot, h.1, h.2]
      rfl
    · rw [hk.1, if_pos rfl] at h
      rw [Option.bind_some, h idx hk]
      cases hv : last (some idx) with
      | none => exact hdef hv
      | some v => rfl

theorem RowOk.put (h : RowOk d last row) (hk : d.Fits k) (v : List Char) :
    RowOk d (fun k' => if k' = k then some (v.take 255) else last k') (some ((row.getD (.fresh n)).put k v)) := by
  rw [RowOk]
  rcases k with _ | idx
  · have harr : d.arr = false := hk
    rw [harr, if_neg (by simp), if_pos rfl]
    refine ⟨?_, rfl⟩
    rcases row with _ | r
    · rfl
    · rw [RowOk, harr, if_neg (by simp)] at h
      exact h.1
  · obtain ⟨harr, hlo, hhi⟩ := hk
    have hin : ¬ (idx < 1 ∨ 1000000 < idx) := by omega
    rw [harr, if_pos rfl]
    intro j hj
    have hj' : ¬ (j < 1 ∨ 1000000 < j) := by
      obtain ⟨-, h1, h2⟩ := hj
      omega
    have hold : (((row.getD (.fresh n)).elem.getD fun _ => none) : ℤ → Option (List Char)) j = last (some j) := by
      rcases row with _ | r
      · exact (h (some j) hj).symm
      · rw [RowOk, harr, if_pos rfl] at h
        have hslot := h j hj
        rw [SetRow.slot, if_neg hj'] at hslot
        rw [← hslot]
        rcases hr : r.elem with _ | e <;> simp [hr]
    rw [SetRow.put, if_neg hin, SetRow.slot, if_neg hj', Option.bind_some]
    by_cases he : j = idx
    · rw [he, Function.update_self, if_pos rfl]
    · rw [Function.update_of_ne he, if_neg (by simpa using he), hold]

/-- A declaration gives a scalar its initial value if it has none. -/
theorem RowOk.initial (h : RowOk d last row) (harr : d.arr = false) (hnone : last none = none) (l : Bool) :
    RowOk d last (some (({ row.getD (.fresh n) with islcl := l } : SetRow).put none d.ty.initial)) := by
  have hcut : d.ty.initial.take 255 = d.ty.initial := by cases d.ty <;> rfl
  rw [RowOk, harr, if_neg (by simp), hnone]
  refine ⟨?_, hcut⟩
  rcases row with _ | r
  · rfl
  · rw [RowOk, harr, if_neg (by simp)] at h
    exact h.1

/-- A flag of a row does not matter. -/
theorem RowOk.flag (h : RowOk d last row) (harr : d.arr = true) (l : Bool) :
    RowOk d last (some { row.getD (.fresh n) with islcl := l }) := by
  rw [RowOk, harr, if_pos rfl]
  intro idx hidx
  rcases row with _ | r
  · rw [h _ hidx]
    obtain ⟨-, hlo, hhi⟩ := hidx
    rw [SetRow.slot, if_neg (by omega)]
    rfl
  · rw [RowOk, harr, if_pos rfl] at h
    exact h idx hidx

end RowOk

section Trace

variable {src : ℕ → List DeclCard} {tr : List SetEvent} {i : ℕ} {n : List Char}

theorem lastVal_enter (cell : SetCell) : lastVal src (tr ++ [.enter]) cell = lastVal src tr cell := by
  rw [lastVal, List.foldl_append]
  rfl

theorem lastVal_decl (tr : List SetEvent) (i : ℕ) (isg : Bool) (ty : SetType) (f : List Char) (cell : SetCell) :
    lastVal src (tr ++ [.decl i isg ty f]) cell = lastVal src tr cell := by
  rw [lastVal, List.foldl_append]
  rfl

theorem lastVal_set (k : Option ℤ) (v : List Char) (cell : SetCell) :
    lastVal src (tr ++ [.set i n k v]) cell = if cellOf src i n k = cell then some (v.take 255) else lastVal src tr cell := by
  rw [lastVal, List.foldl_append]
  rfl

/-- A cell of a context that has assigned nothing. -/
theorem lastVal_own_none (h : ∀ n k v, SetEvent.set i n k v ∉ tr) (k : Option ℤ) : lastVal src tr (.own i n k) = none := by
  induction tr using List.reverseRecOn with
  | nil => rfl
  | append_singleton tr e ih =>
    have ih := ih (fun n k v hmem => h n k v (List.mem_append_left _ hmem))
    cases e with
    | enter => rw [lastVal_enter, ih]
    | decl j isg ty f => rw [lastVal_decl, ih]
    | set j m k' v =>
      have hj : j ≠ i := by
        rintro rfl
        exact h m k' v (by simp)
      rw [lastVal_set, if_neg, ih]
      intro hcell
      rw [cellOf] at hcell
      split_ifs at hcell
      exact hj (SetCell.own.inj hcell).1

theorem marked_append (e : SetEvent) : Marked (tr ++ [e]) n ↔ Marked tr n ∨ ∃ i ty f, e = .decl i true ty f ∧ baseOf f = n := by
  simp only [Marked, List.mem_append, List.mem_singleton]
  constructor
  · rintro ⟨i, ty, f, h | h, hf⟩
    · exact Or.inl ⟨i, ty, f, h, hf⟩
    · exact Or.inr ⟨i, ty, f, h.symm, hf⟩
  · rintro (⟨i, ty, f, h, hf⟩ | ⟨i, ty, f, h, hf⟩)
    · exact ⟨i, ty, f, Or.inl h, hf⟩
    · exact ⟨i, ty, f, Or.inr h.symm, hf⟩

theorem pinned_append (e : SetEvent) : Pinned (tr ++ [e]) i n ↔ Pinned tr i n ∨ ∃ ty f, e = .decl i false ty f ∧ baseOf f = n := by
  simp only [Pinned, List.mem_append, List.mem_singleton]
  constructor
  · rintro ⟨ty, f, h | h, hf⟩
    · exact Or.inl ⟨ty, f, h, hf⟩
    · exact Or.inr ⟨ty, f, h.symm, hf⟩
  · rintro (⟨ty, f, h, hf⟩ | ⟨ty, f, h, hf⟩)
    · exact ⟨ty, f, Or.inl h, hf⟩
    · exact ⟨ty, f, Or.inr h.symm, hf⟩

theorem arraysOf_append (e : SetEvent) : arraysOf (tr ++ [e]) i = arraysOf tr i ++ arraysOf [e] i := by
  rw [arraysOf, List.filterMap_append]
  rfl

end Trace

/-- The tables after some steps, against these steps. -/
structure SetInv (src : ℕ → List DeclCard) (tr : List SetEvent) (st : SetSt) : Prop where
  legal : ∀ e ∈ tr, Legal src e
  gbl : ∀ n, n ∈ st.gbl ↔ Marked tr n
  new : ∀ i, st.ctxs.length ≤ i → (∀ isg ty f, SetEvent.decl i isg ty f ∉ tr) ∧ ∀ n k v, SetEvent.set i n k v ∉ tr
  source : ∀ i c, st.ctxs[i]? = some c → c.src = src i
  pin : ∀ i c, st.ctxs[i]? = some c → ∀ n, (rowFind c.sr n).any SetRow.islcl = true ↔ Pinned tr i n
  arr : ∀ i c, st.ctxs[i]? = some c → c.arrb = (arraysOf tr i).take 48
  glob : ∀ i n d, declOf (src i) n = some d → d.isg = true →
    RowOk d (fun k => lastVal src tr (.global n k)) (rowFind st.gsr n)
  own : ∀ i c, st.ctxs[i]? = some c → ∀ n d, declOf (src i) n = some d → d.isg = false →
    RowOk d (fun k => lastVal src tr (.own i n k)) (rowFind c.sr n)

section Inv

variable {src : ℕ → List DeclCard} {tr : List SetEvent} {st st' : SetSt} {i : ℕ} {c : SetCtx} {n : List Char} {d : SetDecl}

theorem SetInv.empty : SetInv src [] .empty := by
  refine ⟨?_, ?_, ?_, ?_, ?_, ?_, ?_, ?_⟩
  · intro e he
    exact absurd he List.not_mem_nil
  · intro n
    simp [Marked, SetSt.empty]
  · intro i _
    exact ⟨fun _ _ _ => List.not_mem_nil, fun _ _ _ => List.not_mem_nil⟩
  · intro i c h
    exact absurd h (by simp [SetSt.empty])
  · intro i c h
    exact absurd h (by simp [SetSt.empty])
  · intro i c h
    exact absurd h (by simp [SetSt.empty])
  · intro i n d _ _ k _
    rfl
  · intro i c h
    exact absurd h (by simp [SetSt.empty])

/-- A name that the context has pinned is local in its source. -/
theorem SetInv.isg_of_pinned (h : SetInv src tr st) (hd : declOf (src i) n = some d) (hp : Pinned tr i n) :
    d.isg = false := by
  obtain ⟨ty, f, hmem, rfl⟩ := hp
  have hl : declOf (src i) (baseOf f) = _ := h.legal _ hmem
  rw [hd, Option.some.injEq] at hl
  rw [hl]

/-- A routed name is looked up where its source puts it. -/
theorem SetInv.isGlobalIn (h : SetInv src tr st) (hc : st.ctxs[i]? = some c) (hd : declOf (src i) n = some d)
    (hr : Routed tr i n d) : st.isGlobalIn c n = d.isg := by
  rw [SetSt.isGlobalIn]
  have hpin := h.pin i c hc n
  have hgbl := h.gbl n
  rw [Routed] at hr
  cases hg : d.isg with
  | true =>
    rw [hg, if_pos rfl] at hr
    have hnp : ¬ Pinned tr i n := by
      intro hp
      rw [h.isg_of_pinned hd hp] at hg
      exact absurd hg (by simp)
    rw [if_neg (fun hp => hnp (hpin.mp hp))]
    exact decide_eq_true (hgbl.mpr hr)
  | false =>
    rw [hg, if_neg (by simp)] at hr
    by_cases hp : Pinned tr i n
    · rw [if_pos (hpin.mpr hp)]
    · rw [if_neg (fun h' => hp (hpin.mp h'))]
      have hnm := hr.resolve_left hp
      exact decide_eq_false (fun h' => hnm (hgbl.mp h'))

theorem SetInv.enter (h : SetInv src tr st) :
    SetInv src (tr ++ [.enter]) { st with ctxs := st.ctxs ++ [⟨[], [], src st.ctxs.length⟩] } := by
  obtain ⟨hlegal, hgbl, hnew, hsrc, hpin, harr, hglob, hown⟩ := h
  have hctx : ∀ {i : ℕ} {c : SetCtx}, (st.ctxs ++ [⟨[], [], src st.ctxs.length⟩])[i]? = some c →
      st.ctxs[i]? = some c ∨ i = st.ctxs.length ∧ c = ⟨[], [], src st.ctxs.length⟩ := by
    intro i c hc
    rw [List.getElem?_append] at hc
    split_ifs at hc with hi
    · exact Or.inl hc
    · obtain rfl | hlt := eq_or_lt_of_le (not_lt.mp hi)
      · refine Or.inr ⟨rfl, ?_⟩
        simpa using hc.symm
      · rw [List.getElem?_eq_none (by rw [List.length_singleton]; omega)] at hc
        exact absurd hc (by simp)
  have hno : ∀ {i : ℕ} {n : List Char}, Pinned (tr ++ [.enter]) i n ↔ Pinned tr i n := by
    intro i n
    rw [pinned_append]
    simp
  refine ⟨?_, ?_, ?_, ?_, ?_, ?_, ?_, ?_⟩
  · intro e he
    rcases List.mem_append.mp he with he | he
    · exact hlegal e he
    · obtain rfl := List.mem_singleton.mp he
      trivial
  · intro n
    rw [marked_append]
    simp [hgbl n]
  · intro i hi
    obtain ⟨h1, h2⟩ := hnew i (by simp at hi; omega)
    exact ⟨fun isg ty f hm => h1 isg ty f (by simpa using hm), fun n k v hm => h2 n k v (by simpa using hm)⟩
  · intro i c hc
    rcases hctx hc with hc | ⟨rfl, rfl⟩
    · exact hsrc i c hc
    · rfl
  · intro i c hc n
    rw [hno]
    rcases hctx hc with hc | ⟨rfl, rfl⟩
    · exact hpin i c hc n
    · refine iff_of_false (by simp [rowFind]) ?_
      rintro ⟨ty, f, hm, -⟩
      exact (hnew _ le_rfl).1 false ty f hm
  · intro i c hc
    rw [arraysOf_append]
    rcases hctx hc with hc | ⟨rfl, rfl⟩
    · rw [harr i c hc]
      simp [arraysOf]
    · have hnil : arraysOf tr st.ctxs.length = [] := by
        rw [arraysOf, List.filterMap_eq_nil_iff]
        intro e he
        cases e with
        | enter => rfl
        | set => rfl
        | decl j isg ty f =>
          have hj : j ≠ st.ctxs.length := by
            rintro rfl
            exact (hnew _ le_rfl).1 isg ty f he
          dsimp only
          rw [if_neg (fun h' => hj h'.1)]
      rw [hnil]
      rfl
  · intro i n d hd hg
    exact (hglob i n d hd hg).congr (fun k => lastVal_enter _)
  · intro i c hc n d hd hg
    rcases hctx hc with hc | ⟨rfl, rfl⟩
    · exact (hown i c hc n d hd hg).congr (fun k => lastVal_enter _)
    · intro k _
      dsimp only
      rw [lastVal_enter, lastVal_own_none (hnew _ le_rfl).2]

theorem set_of_getElem? (hc : st.ctxs[i]? = some c) : st.ctxs.set i c = st.ctxs := by
  apply List.ext_getElem?
  intro j
  by_cases hj : i = j
  · rw [← hj, List.getElem?_set_self', hc]
    rfl
  · rw [List.getElem?_set_ne hj]

/-- The context in which a step is made. -/
def SetEvent.at : SetEvent → Option ℕ
  | .enter => none
  | .decl i .. => some i
  | .set i .. => some i

/-- A step in one context leaves the others as they are. -/
theorem SetInv.update (h : SetInv src tr st) {e : SetEvent} {c' : SetCtx} (hc : st.ctxs[i]? = some c) (he : e.at = some i)
    (hl : Legal src e) (hctxs : st'.ctxs = st.ctxs.set i c')
    (hgbl : ∀ n, n ∈ st'.gbl ↔ Marked (tr ++ [e]) n) (hsrc : c'.src = c.src)
    (hpin : ∀ n, (rowFind c'.sr n).any SetRow.islcl = true ↔ Pinned (tr ++ [e]) i n)
    (harr : c'.arrb = (arraysOf (tr ++ [e]) i).take 48)
    (hglob : ∀ j n d, declOf (src j) n = some d → d.isg = true →
      RowOk d (fun k => lastVal src (tr ++ [e]) (.global n k)) (rowFind st'.gsr n))
    (hown : ∀ n d, declOf (src i) n = some d → d.isg = false →
      RowOk d (fun k => lastVal src (tr ++ [e]) (.own i n k)) (rowFind c'.sr n)) :
    SetInv src (tr ++ [e]) st' := by
  have hi : i < st.ctxs.length := by
    by_contra hge
    rw [List.getElem?_eq_none (by omega)] at hc
    exact absurd hc (by simp)
  have hctx : ∀ {j : ℕ} {x : SetCtx}, st'.ctxs[j]? = some x → j = i ∧ x = c' ∨ j ≠ i ∧ st.ctxs[j]? = some x := by
    intro j x hx
    rw [hctxs] at hx
    by_cases hj : j = i
    · rw [hj, List.getElem?_set_self hi] at hx
      exact Or.inl ⟨hj, (Option.some.inj hx).symm⟩
    · rw [List.getElem?_set_ne (Ne.symm hj)] at hx
      exact Or.inr ⟨hj, hx⟩
  refine ⟨?_, hgbl, ?_, ?_, ?_, ?_, hglob, ?_⟩
  · intro e' he'
    rcases List.mem_append.mp he' with he' | he'
    · exact h.legal e' he'
    · rwa [List.mem_singleton.mp he']
  · intro j hj
    rw [hctxs, List.length_set] at hj
    obtain ⟨h1, h2⟩ := h.new j hj
    have hne : e.at ≠ some j := by
      rw [he]
      intro heq
      obtain rfl := Option.some.inj heq
      omega
    constructor
    · intro isg ty f hm
      rcases List.mem_append.mp hm with hm | hm
      · exact h1 isg ty f hm
      · rw [← List.mem_singleton.mp hm] at hne
        exact hne rfl
    · intro n k v hm
      rcases List.mem_append.mp hm with hm | hm
      · exact h2 n k v hm
      · rw [← List.mem_singleton.mp hm] at hne
        exact hne rfl
  · intro j x hx
    rcases hctx hx with ⟨rfl, rfl⟩ | ⟨hj, hx⟩
    · rw [hsrc, h.source j c hc]
    · exact h.source j x hx
  · intro j x hx n
    rcases hctx hx with ⟨rfl, rfl⟩ | ⟨hj, hx⟩
    · exact hpin n
    · rw [h.pin j x hx n, pinned_append]
      refine ⟨Or.inl, ?_⟩
      rintro (hp | ⟨ty, f, rfl, -⟩)
      · exact hp
      · exact absurd (Option.some.inj he) hj
  · intro j x hx
    rcases hctx hx with ⟨rfl, rfl⟩ | ⟨hj, hx⟩
    · exact harr
    · have hnil : arraysOf [e] j = [] := by
        cases e with
        | enter => rfl
        | set => rfl
        | decl j' isg ty f =>
          obtain rfl := Option.some.inj he
          simp [arraysOf, Ne.symm hj]
      rw [h.arr j x hx, arraysOf_append, hnil, List.append_nil]
  · intro j x hx n d hd hg
    rcases hctx hx with ⟨rfl, rfl⟩ | ⟨hj, hx⟩
    · exact hown n d hd hg
    · refine (h.own j x hx n d hd hg).congr (fun k => ?_)
      cases e with
      | enter => exact lastVal_enter _
      | decl => exact lastVal_decl ..
      | set i' m k' v =>
        obtain rfl := Option.some.inj he
        rw [lastVal_set, if_neg]
        intro hcell
        rw [cellOf] at hcell
        split_ifs at hcell
        exact hj (SetCell.own.inj hcell).1.symm

theorem any_rowPut {rows : List SetRow} {f : SetRow → SetRow} (hf : ∀ r, (f r).name = r.name)
    (hl : ∀ r, (f r).islcl = r.islcl) (m : List Char) :
    (rowFind (rowPut n f rows) m).any SetRow.islcl = (rowFind rows m).any SetRow.islcl := by
  rw [rowFind_rowPut hf]
  split_ifs with hm
  · rw [hm, Option.any_some, hl]
    cases rowFind rows n <;> rfl
  · rfl

/-- An assignment to a routed name. -/
theorem SetInv.set (h : SetInv src tr st) (hagree : Agreed src) {k : Option ℤ} {v : List Char}
    (hl : Legal src (.set i n k v)) (ho : Orderly src tr (.set i n k v)) (hc : st.ctxs[i]? = some c)
    (hput : st.setPut i c n k v = some st') : SetInv src (tr ++ [.set i n k v]) st' := by
  obtain ⟨d, hd, hk⟩ := hl
  have hgl := h.isGlobalIn hc hd (ho d hd)
  have hname : ∀ r : SetRow, (r.put k v).name = r.name := fun r => put_name r k v
  have hmark : ∀ m, Marked (tr ++ [SetEvent.set i n k v]) m ↔ Marked tr m := by
    intro m
    rw [marked_append]
    simp
  have hpinned : ∀ m, Pinned (tr ++ [SetEvent.set i n k v]) i m ↔ Pinned tr i m := by
    intro m
    rw [pinned_append]
    simp
  have harrays : arraysOf (tr ++ [SetEvent.set i n k v]) i = arraysOf tr i := by
    rw [arraysOf_append]
    exact List.append_nil _
  rw [SetSt.setPut, hgl] at hput
  cases hg : d.isg with
  | true =>
    have hcell : ∀ m, cellOf src i n m = .global n m := by
      intro m
      rw [cellOf, hd, Option.any_some, hg, if_pos rfl]
    rw [hg, if_pos rfl] at hput
    split_ifs at hput with hfull
    obtain rfl := Option.some.inj hput
    refine h.update hc rfl ⟨d, hd, hk⟩ (set_of_getElem? hc).symm (fun m => (h.gbl m).trans (hmark m).symm) rfl
      (fun m => (h.pin i c hc m).trans (hpinned m).symm) (by rw [harrays]; exact h.arr i c hc) ?_ ?_
    · intro j m d' hd' hg'
      rw [rowFind_rowPut hname]
      by_cases hm : m = n
      · obtain rfl := hm
        obtain rfl := hagree i j m d d' hd hd' hg hg'
        rw [if_pos rfl]
        refine ((h.glob j m d hd' hg').put hk v).congr (fun k' => ?_)
        rw [lastVal_set, hcell]
        by_cases hkk : k' = k
        · rw [if_pos hkk, if_pos (by rw [hkk])]
        · rw [if_neg hkk, if_neg (fun he => hkk (SetCell.global.inj he).2.symm)]
      · rw [if_neg hm]
        refine (h.glob j m d' hd' hg').congr (fun k' => ?_)
        rw [lastVal_set, hcell, if_neg (fun he => hm (SetCell.global.inj he).1.symm)]
    · intro m d' hd' hg'
      refine (h.own i c hc m d' hd' hg').congr (fun k' => ?_)
      rw [lastVal_set, hcell, if_neg (by simp)]
  | false =>
    have hcell : ∀ m, cellOf src i n m = .own i n m := by
      intro m
      rw [cellOf, hd, Option.any_some, hg, if_neg (by simp)]
    rw [hg, if_neg (by simp), SetSt.rowLocal] at hput
    split_ifs at hput with hfull
    obtain rfl := Option.some.inj hput
    refine h.update hc rfl ⟨d, hd, hk⟩ rfl (fun m => (h.gbl m).trans (hmark m).symm) rfl
      (fun m => ?_) (by rw [harrays]; exact h.arr i c hc) ?_ ?_
    · rw [any_rowPut hname (fun r => put_islcl r k v)]
      exact (h.pin i c hc m).trans (hpinned m).symm
    · intro j m d' hd' hg'
      refine (h.glob j m d' hd' hg').congr (fun k' => ?_)
      rw [lastVal_set, hcell, if_neg (by simp)]
    · intro m d' hd' hg'
      rw [rowFind_rowPut hname]
      by_cases hm : m = n
      · obtain rfl := hm
        obtain rfl := Option.some.inj (hd.symm.trans hd')
        rw [if_pos rfl]
        refine ((h.own i c hc m d hd hg).put hk v).congr (fun k' => ?_)
        rw [lastVal_set, hcell]
        by_cases hkk : k' = k
        · rw [if_pos hkk, if_pos (by rw [hkk])]
        · rw [if_neg hkk, if_neg (fun he => hkk (SetCell.own.inj he).2.2.symm)]
      · rw [if_neg hm]
        refine (h.own i c hc m d' hd' hg').congr (fun k' => ?_)
        rw [lastVal_set, hcell, if_neg (fun he => hm (SetCell.own.inj he).2.1.symm)]

theorem mem_markGlobal (h : st.markGlobal n = some st') :
    (∀ m, m ∈ st'.gbl ↔ m ∈ st.gbl ∨ m = n) ∧ st'.ctxs = st.ctxs ∧ st'.gsr = st.gsr := by
  rw [SetSt.markGlobal] at h
  split_ifs at h with hin hfull
  · obtain rfl := Option.some.inj h
    refine ⟨fun m => ⟨Or.inl, ?_⟩, rfl, rfl⟩
    rintro (hm | rfl)
    · exact hm
    · exact hin
  · obtain rfl := Option.some.inj h
    exact ⟨fun m => by simp, rfl, rfl⟩

/-- The arrays that a context notes. -/
theorem noteArray_eq (hc : st.ctxs[i]? = some c) (ty : SetType) : ∃ c', st.noteArray i c ty n = { st with ctxs := st.ctxs.set i c' } ∧
    c'.sr = c.sr ∧ c'.src = c.src ∧
    ∀ l : List (List Char × Bool), c.arrb = l.take 48 → c'.arrb = (l ++ [(n, decide (ty ≠ .c))]).take 48 := by
  rw [SetSt.noteArray]
  split_ifs with hlen
  · refine ⟨_, rfl, rfl, rfl, fun l hl => ?_⟩
    have hl48 : l.length < 48 := by
      rw [hl, List.length_take] at hlen
      omega
    dsimp only
    rw [hl, List.take_of_length_le (by omega), List.take_of_length_le (by simp; omega)]
  · refine ⟨c, by rw [set_of_getElem? hc], rfl, rfl, fun l hl => ?_⟩
    have hl48 : 48 ≤ l.length := by
      rw [hl, List.length_take] at hlen
      omega
    rw [hl, List.take_append_of_le_length hl48]

section Declare

variable {isg : Bool} {ty : SetType} {f : List Char}

theorem marked_decl (m : List Char) : Marked (tr ++ [.decl i isg ty f]) m ↔ Marked tr m ∨ isg = true ∧ m = baseOf f := by
  rw [marked_append]
  constructor
  · rintro (h | ⟨i', ty', f', he, hf⟩)
    · exact Or.inl h
    · obtain ⟨-, rfl, -, rfl⟩ := SetEvent.decl.inj he
      exact Or.inr ⟨rfl, hf.symm⟩
  · rintro (h | ⟨rfl, rfl⟩)
    · exact Or.inl h
    · exact Or.inr ⟨i, ty, f, rfl, rfl⟩

theorem pinned_decl (m : List Char) : Pinned (tr ++ [.decl i isg ty f]) i m ↔ Pinned tr i m ∨ isg = false ∧ m = baseOf f := by
  rw [pinned_append]
  constructor
  · rintro (h | ⟨ty', f', he, hf⟩)
    · exact Or.inl h
    · obtain ⟨-, rfl, -, rfl⟩ := SetEvent.decl.inj he
      exact Or.inr ⟨rfl, hf.symm⟩
  · rintro (h | ⟨rfl, rfl⟩)
    · exact Or.inl h
    · exact Or.inr ⟨ty, f, rfl, rfl⟩

theorem arraysOf_decl : arraysOf [.decl i isg ty f] i = if '(' ∈ f then [(baseOf f, decide (ty ≠ .c))] else [] := by
  by_cases h : '(' ∈ f <;> simp [arraysOf, h]

/-- A declared name of the context is what its source says. -/
theorem declOf_eq (hl : Legal src (.decl i isg ty f)) (hd : declOf (src i) (baseOf f) = some d) :
    d = ⟨isg, ty, '(' ∈ f⟩ := by
  have hl : declOf (src i) (baseOf f) = _ := hl
  exact Option.some.inj (hd.symm.trans hl)

/-- The row of an LCLx: it is pinned, and the other rows stay. -/
theorem any_pinned {rows : List SetRow} {g : SetRow → SetRow} (hname : ∀ r, (g r).name = r.name)
    (hlcl : ∀ r, (g r).islcl = true) (m : List Char) :
    (rowFind (rowPut n g rows) m).any SetRow.islcl = true ↔ (rowFind rows m).any SetRow.islcl = true ∨ m = n := by
  rw [rowFind_rowPut hname]
  split_ifs with hm
  · rw [Option.any_some, hlcl]
    simp [hm]
  · simp [hm]

theorem rowLocal_eq {g : SetRow → SetRow} (h : st.rowLocal i c n g = some st') :
    st' = { st with ctxs := st.ctxs.set i { c with sr := rowPut n g c.sr } } := by
  rw [SetSt.rowLocal] at h
  split_ifs at h
  exact (Option.some.inj h).symm

theorem lt_of_ctx (hc : st.ctxs[i]? = some c) : i < st.ctxs.length := by
  by_contra hge
  rw [List.getElem?_eq_none (by omega)] at hc
  exact absurd hc (by simp)

/-- GBLx of an array -/
theorem SetInv.gblArray (h : SetInv src tr st) (hl : Legal src (.decl i true ty f)) (hf : '(' ∈ f)
    (hc : st.ctxs[i]? = some c) (hdo : (st.noteArray i c ty (baseOf f)).markGlobal (baseOf f) = some st') :
    SetInv src (tr ++ [.decl i true ty f]) st' := by
  obtain ⟨c', hnote, hsr, hsrc, harrb⟩ := noteArray_eq (n := baseOf f) hc ty
  rw [hnote] at hdo
  obtain ⟨hgbl, hctxs, hgsr⟩ := mem_markGlobal hdo
  refine h.update hc rfl hl hctxs ?_ hsrc ?_ ?_ ?_ ?_
  · intro m
    rw [hgbl, marked_decl, h.gbl m]
    simp
  · intro m
    rw [hsr, h.pin i c hc m, pinned_decl]
    simp
  · rw [arraysOf_append, arraysOf_decl, if_pos hf]
    exact harrb _ (h.arr i c hc)
  · intro j m d hd hg
    rw [hgsr]
    exact (h.glob j m d hd hg).congr (fun k => lastVal_decl ..)
  · intro m d hd hg
    rw [hsr]
    exact (h.own i c hc m d hd hg).congr (fun k => lastVal_decl ..)

/-- LCLx of an array -/
theorem SetInv.lclArray (h : SetInv src tr st) (hl : Legal src (.decl i false ty f)) (hf : '(' ∈ f)
    (hc : st.ctxs[i]? = some c)
    (hdo : ((st.noteArray i c ty (baseOf f)).ctxs[i]?.bind fun c' =>
      (st.noteArray i c ty (baseOf f)).lclDeclare i c' (baseOf f)) = some st') :
    SetInv src (tr ++ [.decl i false ty f]) st' := by
  obtain ⟨c', hnote, hsr, hsrc, harrb⟩ := noteArray_eq (n := baseOf f) hc ty
  rw [hnote] at hdo
  have hc' : (st.ctxs.set i c')[i]? = some c' := List.getElem?_set_self (lt_of_ctx hc)
  rw [hc', Option.bind_some, SetSt.lclDeclare] at hdo
  obtain rfl := rowLocal_eq hdo
  have hname : ∀ r : SetRow, ({ r with islcl := true } : SetRow).name = r.name := fun r => rfl
  refine h.update hc rfl hl (List.set_set ..) ?_ hsrc ?_ ?_ ?_ ?_
  · intro m
    rw [marked_decl, h.gbl m]
    simp
  · intro m
    dsimp only
    rw [hsr, any_pinned hname (fun _ => rfl), h.pin i c hc m, pinned_decl]
    simp
  · rw [arraysOf_append, arraysOf_decl, if_pos hf]
    exact harrb _ (h.arr i c hc)
  · intro j m d hd hg
    exact (h.glob j m d hd hg).congr (fun k => lastVal_decl ..)
  · intro m d hd hg
    have hrow := (h.own i c hc m d hd hg).congr (fun k => lastVal_decl tr i false ty f (.own i m k))
    dsimp only
    rw [hsr, rowFind_rowPut hname]
    split_ifs with hm
    · obtain rfl := hm
      obtain rfl := declOf_eq hl hd
      exact hrow.flag (by simp [hf]) true
    · exact hrow

/-- GBLx of a scalar: it gets its initial value if it has none. -/
theorem SetInv.gblScalar (h : SetInv src tr st) (hagree : Agreed src) (hl : Legal src (.decl i true ty f)) (hf : '(' ∉ f)
    (hc : st.ctxs[i]? = some c)
    (hdo : ((st.markGlobal (baseOf f)).bind fun st1 =>
      if (st1.setFind c (baseOf f) none).isSome then some st1 else st1.setPut i c (baseOf f) none ty.initial) = some st') :
    SetInv src (tr ++ [.decl i true ty f]) st' := by
  obtain ⟨st1, hst1, hdo⟩ := Option.bind_eq_some_iff.mp hdo
  obtain ⟨hgbl, hctxs, hgsr⟩ := mem_markGlobal hst1
  have hnp : (rowFind c.sr (baseOf f)).any SetRow.islcl ≠ true := by
    intro hp
    have hisg := h.isg_of_pinned hl ((h.pin i c hc _).mp hp)
    exact absurd hisg (by simp)
  have hin : st1.isGlobalIn c (baseOf f) = true := by
    rw [SetSt.isGlobalIn, if_neg hnp]
    exact decide_eq_true ((hgbl _).mpr (Or.inr rfl))
  have hfind : st1.setFind c (baseOf f) none = (rowFind st.gsr (baseOf f)).bind fun r => r.slot none := by
    rw [SetSt.setFind, hin, if_pos rfl, hgsr]
  have hresult : st'.gbl = st1.gbl ∧ st'.ctxs = st.ctxs ∧ ∀ j m d, declOf (src j) m = some d → d.isg = true →
      RowOk d (fun k => lastVal src (tr ++ [.decl i true ty f]) (.global m k)) (rowFind st'.gsr m) := by
    rw [hfind] at hdo
    split_ifs at hdo with hsome
    · obtain rfl := Option.some.inj hdo
      refine ⟨rfl, hctxs, fun j m d hd hg => ?_⟩
      rw [hgsr]
      exact (h.glob j m d hd hg).congr (fun k => lastVal_decl ..)
    · rw [SetSt.setPut, hin, if_pos rfl] at hdo
      split_ifs at hdo
      obtain rfl := Option.some.inj hdo
      refine ⟨rfl, hctxs, fun j m d hd hg => ?_⟩
      have hrow := (h.glob j m d hd hg).congr (fun k => lastVal_decl tr i true ty f (.global m k))
      dsimp only
      rw [hgsr, rowFind_rowPut (fun r => put_name r _ _)]
      split_ifs with hm
      · obtain rfl := hm
        obtain rfl := hagree i j (baseOf f) _ d hl hd rfl hg
        have hnone : rowFind st.gsr (baseOf f) = none := by
          rcases hr : rowFind st.gsr (baseOf f) with _ | r
          · rfl
          · rw [hr, RowOk, if_neg (by simpa using hf)] at hrow
            rw [hr, Option.bind_some, SetRow.slot, hrow.1] at hsome
            exact absurd rfl hsome
        rw [hnone] at hrow ⊢
        exact hrow.initial (by simpa using hf) (hrow none (by simpa [SetDecl.Fits] using hf)) false
      · exact hrow
  obtain ⟨hgbl', hctxs', hrows⟩ := hresult
  refine h.update hc rfl hl (hctxs'.trans (set_of_getElem? hc).symm) ?_ rfl ?_ ?_ hrows ?_
  · intro m
    rw [hgbl', hgbl, marked_decl, h.gbl m]
    simp
  · intro m
    rw [h.pin i c hc m, pinned_decl]
    simp
  · rw [arraysOf_append, arraysOf_decl, if_neg hf, List.append_nil]
    exact h.arr i c hc
  · intro m d hd hg
    exact (h.own i c hc m d hd hg).congr (fun k => lastVal_decl ..)

/-- LCLx of a scalar, before it is assigned. -/
theorem SetInv.lclScalar (h : SetInv src tr st) (hl : Legal src (.decl i false ty f)) (hf : '(' ∉ f)
    (ho : Orderly src tr (.decl i false ty f)) (hc : st.ctxs[i]? = some c)
    (hdo : ((st.lclDeclare i c (baseOf f)).bind fun st1 => st1.ctxs[i]?.bind fun c' =>
      st1.setPut i c' (baseOf f) none ty.initial) = some st') :
    SetInv src (tr ++ [.decl i false ty f]) st' := by
  obtain ⟨st1, hst1, hdo⟩ := Option.bind_eq_some_iff.mp hdo
  obtain rfl := rowLocal_eq hst1
  rw [List.getElem?_set_self (lt_of_ctx hc), Option.bind_some] at hdo
  have hname : ∀ r : SetRow, ({ r with islcl := true } : SetRow).name = r.name := fun r => rfl
  have hloc : SetSt.isGlobalIn { st with ctxs := st.ctxs.set i { c with sr := rowPut (baseOf f) (fun r => { r with islcl := true }) c.sr } }
      { c with sr := rowPut (baseOf f) (fun r => { r with islcl := true }) c.sr } (baseOf f) = false := by
    rw [SetSt.isGlobalIn, if_pos]
    exact (any_pinned hname (fun _ => rfl) _).mpr (Or.inr rfl)
  rw [SetSt.setPut, hloc, if_neg (by simp)] at hdo
  obtain rfl := rowLocal_eq hdo
  refine h.update hc rfl hl (List.set_set ..) ?_ rfl ?_ ?_ ?_ ?_
  · intro m
    rw [marked_decl, h.gbl m]
    simp
  · intro m
    dsimp only
    rw [any_rowPut (fun r => put_name r _ _) (fun r => put_islcl r _ _), any_pinned hname (fun _ => rfl),
      h.pin i c hc m, pinned_decl]
    simp
  · rw [arraysOf_append, arraysOf_decl, if_neg hf, List.append_nil]
    exact h.arr i c hc
  · intro j m d hd hg
    exact (h.glob j m d hd hg).congr (fun k => lastVal_decl ..)
  · intro m d hd hg
    have hrow := (h.own i c hc m d hd hg).congr (fun k => lastVal_decl tr i false ty f (.own i m k))
    dsimp only
    rw [rowFind_rowPut (fun r => put_name r _ _)]
    by_cases hm : m = baseOf f
    · obtain rfl := hm
      obtain rfl := declOf_eq hl hd
      have hnone : lastVal src (tr ++ [.decl i false ty f]) (.own i (baseOf f) none) = none := by
        rw [lastVal_decl]
        exact ho rfl hf
      rw [if_pos rfl, rowFind_rowPut hname, if_pos rfl, Option.getD_some]
      exact hrow.initial (by simpa using hf) hnone true
    · rw [if_neg hm, rowFind_rowPut hname, if_neg hm]
      exact hrow

end Declare

/-- One step of a program. -/
theorem SetInv.step (h : SetInv src tr st) (hagree : Agreed src) {e : SetEvent} (hl : Legal src e)
    (ho : Orderly src tr e) (hstep : st.step src e = some st') : SetInv src (tr ++ [e]) st' := by
  cases e with
  | enter =>
    obtain rfl := Option.some.inj hstep
    exact h.enter
  | set i n k v =>
    obtain ⟨c, hc, hput⟩ := Option.bind_eq_some_iff.mp hstep
    exact h.set hagree hl ho hc hput
  | decl i isg ty f =>
    obtain ⟨c, hc, hdo⟩ := Option.bind_eq_some_iff.mp hstep
    dsimp only at hdo
    by_cases hf : '(' ∈ f
    · rw [if_pos hf] at hdo
      cases isg with
      | true => exact h.gblArray hl hf hc hdo
      | false => exact h.lclArray hl hf hc hdo
    · rw [if_neg hf] at hdo
      cases isg with
      | true => exact h.gblScalar hagree hl hf hc hdo
      | false => exact h.lclScalar hl hf ho hc hdo

/-- Every step of a run is legal, and meets the declarations performed before it. -/
def Proper (src : ℕ → List DeclCard) (tr : List SetEvent) : Prop :=
  ∀ pre e, pre ++ [e] <+: tr → Legal src e ∧ Orderly src pre e

theorem SetInv.run (hagree : Agreed src) (hp : Proper src tr) (hrun : SetSt.run src tr = some st) : SetInv src tr st := by
  induction tr using List.reverseRecOn generalizing st with
  | nil =>
    obtain rfl := Option.some.inj hrun
    exact .empty
  | append_singleton tr e ih =>
    rw [SetSt.run, List.foldlM_append] at hrun
    obtain ⟨st1, hst1, hstep⟩ := Option.bind_eq_some_iff.mp hrun
    have hinv := ih (fun pre e' h' => hp pre e' (h'.trans (List.prefix_append _ _))) hst1
    obtain ⟨hl, ho⟩ := hp tr e (List.prefix_refl _)
    rw [List.foldlM_cons] at hstep
    obtain ⟨st2, hst2, hnil⟩ := Option.bind_eq_some_iff.mp hstep
    obtain rfl := Option.some.inj hnil
    exact hinv.step hagree hl ho hst2

/-- The declaration of a name as the dictionary has it. -/
theorem vdictType_eq (cards : List DeclCard) (n : List Char) : vdictType cards n = (declOf cards n).map SetDecl.ty := by
  have hpairs : (cards.flatMap fun card => card.fields.map fun f => (baseOf f, card.ty)) =
      (cards.flatMap fun card => card.fields.map fun f => (baseOf f, (⟨card.isg, card.ty, '(' ∈ f⟩ : SetDecl))).map
        fun p => (p.1, p.2.ty) := by
    rw [List.map_flatMap]
    simp only [List.map_map, Function.comp_def]
  rw [vdictType, declOf, hpairs, List.find?_map, Option.map_map, Option.map_map]
  rfl

theorem find_arrays {l : List (List Char × Bool)} {b : Bool} (hin : (n, b) ∈ l) :
    ∃ b', (n, b') ∈ l ∧ (l.find? fun p => p.1 = n) = some (n, b') := by
  cases hfind : l.find? fun p => p.1 = n with
  | none =>
    have hno := List.find?_eq_none.mp hfind (n, b) hin
    simp at hno
  | some p =>
    have hn : p.1 = n := by simpa using List.find?_some hfind
    obtain ⟨n', b'⟩ := p
    obtain rfl : n' = n := hn
    exact ⟨b', List.mem_of_find?_eq_some hfind, rfl⟩

theorem mem_arraysOf (hp : ∀ e ∈ tr, Legal src e) {b : Bool} (hm : (n, b) ∈ arraysOf tr i)
    (hd : declOf (src i) n = some d) : b = decide (d.ty ≠ .c) := by
  rw [arraysOf, List.mem_filterMap] at hm
  obtain ⟨e, he, heq⟩ := hm
  cases e with
  | enter => exact absurd heq (by simp)
  | set => exact absurd heq (by simp)
  | decl j isg ty f =>
    dsimp only at heq
    split_ifs at heq with hj
    obtain ⟨rfl, -⟩ := hj
    obtain ⟨rfl, rfl⟩ := Prod.mk.inj (Option.some.inj heq)
    rw [declOf_eq (hp _ he) hd]

/-- The default of an element is that of the array. -/
theorem SetInv.unset_element (h : SetInv src tr st) (hc : st.ctxs[i]? = some c) (hd : declOf (src i) n = some d)
    (hin : d.ty ≠ .c → ∃ b, (n, b) ∈ (arraysOf tr i).take 48) :
    ((c.arrb.find? fun p => p.1 = n).map fun p => if p.2 then ['0'] else []).getD [] = d.ty.initial := by
  rw [h.arr i c hc]
  have hnum : ∀ b, (n, b) ∈ (arraysOf tr i).take 48 → b = decide (d.ty ≠ .c) :=
    fun b hb => mem_arraysOf h.legal (List.mem_of_mem_take hb) hd
  by_cases hany : ∃ b, (n, b) ∈ (arraysOf tr i).take 48
  · obtain ⟨b, hb⟩ := hany
    obtain ⟨b', hb', hfind⟩ := find_arrays hb
    rw [hfind, Option.map_some, hnum b' hb']
    cases d.ty <;> rfl
  · have hty : d.ty = .c := by
      by_contra hty
      exact hany (hin hty)
    have hfind : ((arraysOf tr i).take 48).find? (fun p => p.1 = n) = none := by
      rw [List.find?_eq_none]
      rintro ⟨m, b⟩ hp
      simp only [decide_eq_true_eq]
      rintro rfl
      exact hany ⟨b, hp⟩
    rw [hfind, hty]
    rfl

/-- What a reference may ask for: a routed name, and an unassigned element only of an array among
the first 48 that the context has declared. -/
def Readable (src : ℕ → List DeclCard) (tr : List SetEvent) (i : ℕ) (n : List Char) (k : Option ℤ) (d : SetDecl) : Prop :=
  Routed tr i n d ∧ (d.arr = true → d.ty ≠ .c → lastVal src tr (cellOf src i n k) = none →
    ∃ b, (n, b) ∈ (arraysOf tr i).take 48)

/-- A reference returns the value last assigned to its cell, or the declared initial value. -/
theorem SetInv.vref (h : SetInv src tr st) (hc : st.ctxs[i]? = some c) (hd : declOf (src i) n = some d) {k : Option ℤ}
    (hk : d.Fits k) (hr : Readable src tr i n k d) :
    st.vref c n k = (lastVal src tr (cellOf src i n k)).getD d.ty.initial := by
  obtain ⟨hrouted, harr⟩ := hr
  have hgl := h.isGlobalIn hc hd hrouted
  have hrow : RowOk d (fun k => lastVal src tr (cellOf src i n k)) (rowFind (if d.isg then st.gsr else c.sr) n) := by
    cases hg : d.isg with
    | true =>
      refine (h.glob i n d hd hg).congr (fun k => ?_)
      rw [cellOf, hd, Option.any_some, hg, if_pos rfl]
    | false =>
      refine (h.own i c hc n d hd hg).congr (fun k => ?_)
      rw [cellOf, hd, Option.any_some, hg, if_neg (by simp)]
  have hread : ∀ default, (lastVal src tr (cellOf src i n k) = none → default = d.ty.initial) →
      (st.setFind c n k).getD default = (lastVal src tr (cellOf src i n k)).getD d.ty.initial := by
    intro default hdef
    rw [SetSt.setFind, hgl]
    exact hrow.read hk hdef
  rcases k with _ | idx
  · have hdict : ((vdictType c.src n).map SetType.initial).getD [] = d.ty.initial := by
      rw [vdictType_eq, h.source i c hc, hd]
      rfl
    rw [← hread _ (fun _ => hdict), SetSt.vref.eq_def]
    cases st.setFind c n none <;> rfl
  · have hdef : lastVal src tr (cellOf src i n (some idx)) = none →
        ((c.arrb.find? fun p => p.1 = n).map fun p => if p.2 then ['0'] else []).getD [] = d.ty.initial := by
      intro hnone
      exact h.unset_element hc hd (harr hk.1 · hnone)
    rw [← hread _ hdef, SetSt.vref.eq_def]
    cases st.setFind c n (some idx) <;> rfl

theorem proper_nil : Proper src [] := by
  intro pre e h
  exact absurd (List.prefix_nil.mp h) (by simp)

theorem Proper.append (h : Proper src tr) {e : SetEvent} (hl : Legal src e) (ho : Orderly src tr e) :
    Proper src (tr ++ [e]) := by
  intro pre e' h'
  rcases List.prefix_concat_iff.mp h' with heq | h'
  · obtain ⟨rfl, he⟩ := List.append_inj' heq rfl
    obtain rfl := List.singleton_inj.mp he
    exact ⟨hl, ho⟩
  · exact h pre e' h'

/-- An assignment to another cell does not change what may be read. -/
theorem Readable.append {k k' : Option ℤ} {j : ℕ} {m v : List Char} (h : Readable src tr i n k d)
    (hcell : cellOf src j m k' ≠ cellOf src i n k) : Readable src (tr ++ [.set j m k' v]) i n k d := by
  obtain ⟨hr, ha⟩ := h
  refine ⟨?_, ?_⟩
  · rw [Routed] at hr ⊢
    rw [marked_append, pinned_append]
    simpa using hr
  · rw [lastVal_set, if_neg hcell, arraysOf_append, show arraysOf [SetEvent.set j m k' v] i = [] from rfl, List.append_nil]
    exact ha

end Inv

/-- In a run whose declarations come before their uses, a reference returns the value last assigned
to its cell, and an assignment to another cell does not change it. -/
theorem vref_eq_last {src : ℕ → List DeclCard} (hagree : Agreed src) (stmts : List SetStmt)
    (hp : Proper src (stmts.flatMap SetStmt.events)) {st : SetSt}
    (hrun : SetSt.run src (stmts.flatMap SetStmt.events) = some st) {i : ℕ} {c : SetCtx} (hc : st.ctxs[i]? = some c)
    {n : List Char} {d : SetDecl} (hd : declOf (src i) n = some d) {k : Option ℤ} (hk : d.Fits k)
    (hr : Readable src (stmts.flatMap SetStmt.events) i n k d) :
    st.vref c n k = (lastVal src (stmts.flatMap SetStmt.events) (cellOf src i n k)).getD d.ty.initial ∧
    ∀ (j : ℕ) (m : List Char) (k' : Option ℤ) (v : List Char) (st' : SetSt) (c' : SetCtx),
      cellOf src j m k' ≠ cellOf src i n k → Legal src (.set j m k' v) →
      Orderly src (stmts.flatMap SetStmt.events) (.set j m k' v) →
      st.step src (.set j m k' v) = some st' → st'.ctxs[i]? = some c' → st'.vref c' n k = st.vref c n k := by
  have hinv := SetInv.run hagree hp hrun
  have hval := hinv.vref hc hd hk hr
  refine ⟨hval, ?_⟩
  intro j m k' v st' c' hcell hl ho hstep hc'
  rw [(hinv.step hagree hl ho hstep).vref hc' hd hk (hr.append hcell), hval, lastVal_set, if_neg hcell]

section Example

def ampM : List Char := ['&', 'M']

/-- Open code declares &M global; the macro that it calls declares &M local. -/
def scopes (i : ℕ) : List DeclCard := [⟨i = 0, .a, ampM⟩]

theorem declOf_scopes (i : ℕ) (n : List Char) : declOf (scopes i) n = if n = ampM then some ⟨i = 0, .a, false⟩ else none := by
  have hf : splitFields ampM none false 0 [] = [ampM] := by decide
  have hb : baseOf ampM = ampM := by decide
  have hparen : '(' ∉ ampM := by decide
  simp only [declOf, scopes, DeclCard.fields, hf, List.flatMap_cons, List.flatMap_nil, List.append_nil, List.map_cons,
    List.map_nil, hb, hparen, decide_false]
  by_cases hn : n = ampM
  · simp [hn]
  · simp [hn, Ne.symm hn]

theorem scopes_agreed : Agreed scopes := by
  intro i j n d d' hd hd' hg hg'
  rw [declOf_scopes] at hd hd'
  split_ifs at hd hd'
  obtain rfl := Option.some.inj hd
  obtain rfl := Option.some.inj hd'
  simp_all

/-- &M is set to 3 in open code and to 0 in a macro that performs its LCLA. -/
def performed : List SetStmt :=
  [.enter, .card 0 ⟨true, .a, ampM⟩, .set 0 ampM none ['3'], .enter, .card 1 ⟨false, .a, ampM⟩, .set 1 ampM none ['0']]

theorem performed_proper : Proper scopes (performed.flatMap SetStmt.events) := by
  have hset : ∀ i v, Legal scopes (.set i ampM none v) := fun i v => ⟨⟨i = 0, .a, false⟩, by rw [declOf_scopes, if_pos rfl], rfl⟩
  have hd : ∀ i d, declOf (scopes i) ampM = some d → d = ⟨i = 0, .a, false⟩ := by
    intro i d h
    rw [declOf_scopes, if_pos rfl] at h
    exact (Option.some.inj h).symm
  have h0 : Proper scopes [] := proper_nil
  have h1 := h0.append (e := .enter) trivial trivial
  have h2 := h1.append (e := .decl 0 true .a ampM) (declOf_scopes 0 ampM) (by nofun)
  have h3 := h2.append (e := .set 0 ampM none ['3']) (hset 0 _) (by
    intro d h
    rw [hd 0 d h]
    exact ⟨0, .a, ampM, by simp, by decide⟩)
  have h4 := h3.append (e := .enter) trivial trivial
  have h5 := h4.append (e := .decl 1 false .a ampM) (declOf_scopes 1 ampM) (fun _ _ => by decide)
  exact h5.append (e := .set 1 ampM none ['0']) (hset 1 _) (by
    intro d h
    rw [hd 1 d h]
    exact Or.inl ⟨.a, ampM, by simp, by decide⟩)

/-- The global &M is still 3. -/
theorem global_kept : (SetSt.run scopes (performed.flatMap SetStmt.events)).map (fun st => st.ctxs[0]?.map fun c => st.vref c ampM none) =
    some (some ['3']) := by
  have hrun : SetSt.run scopes (performed.flatMap SetStmt.events) =
      some ⟨[ampM], [⟨ampM, ['3'], none, false⟩], [⟨[], [], scopes 0⟩, ⟨[⟨ampM, ['0'], none, true⟩], [], scopes 1⟩]⟩ := rfl
  have h := vref_eq_last scopes_agreed performed performed_proper hrun (i := 0) rfl (k := none)
    ((declOf_scopes 0 ampM).trans (if_pos rfl)) rfl ⟨⟨0, .a, ampM, by simp [performed, SetStmt.events]; decide, by decide⟩, nofun⟩
  rw [hrun, Option.map_some]
  exact congrArg (fun v => some (some v)) (h.1.trans (by decide))

/-- The LCLA is skipped by an AGO: the macro's assignment changes the global &M. -/
theorem skipped_local_changes_global : ¬ ∀ (src : ℕ → List DeclCard) (stmts : List SetStmt) (st : SetSt) (i : ℕ) (c : SetCtx)
    (n : List Char) (d : SetDecl) (k : Option ℤ), Agreed src → (∀ e ∈ stmts.flatMap SetStmt.events, Legal src e) →
      SetSt.run src (stmts.flatMap SetStmt.events) = some st → st.ctxs[i]? = some c → declOf (src i) n = some d → d.Fits k →
      st.vref c n k = (lastVal src (stmts.flatMap SetStmt.events) (cellOf src i n k)).getD d.ty.initial := by
  intro h
  have hset : ∀ i v, Legal scopes (.set i ampM none v) := fun i v => ⟨⟨i = 0, .a, false⟩, by rw [declOf_scopes, if_pos rfl], rfl⟩
  have hlegal : ∀ e ∈ ([.enter, .card 0 ⟨true, .a, ampM⟩, .set 0 ampM none ['3'], .enter, .set 1 ampM none ['0']] : List SetStmt).flatMap
      SetStmt.events, Legal scopes e := by
    intro e he
    have he : e = .enter ∨ e = .decl 0 true .a ampM ∨ e = .set 0 ampM none ['3'] ∨ e = .enter ∨ e = .set 1 ampM none ['0'] := by
      simpa [SetStmt.events, show DeclCard.fields ⟨true, .a, ampM⟩ = [ampM] from by decide] using he
    rcases he with rfl | rfl | rfl | rfl | rfl
    · trivial
    · exact declOf_scopes 0 ampM
    · exact hset 0 _
    · trivial
    · exact hset 1 _
  have hbad := h scopes _ ⟨[ampM], [⟨ampM, ['0'], none, false⟩], [⟨[], [], scopes 0⟩, ⟨[], [], scopes 1⟩]⟩ 0 _ ampM
    ⟨true, .a, false⟩ none scopes_agreed hlegal rfl rfl (declOf_scopes 0 ampM) rfl
  exact absurd hbad (by decide)

end Example

end Cc370.As370
