import ScriptEngine.Lowering
import ScriptEngine.Proofs.Graph.Building
import ScriptEngine.Proofs.Lowering.Rewriting

/-!
What lowering leaves alone, in any graph that lists each instruction once in the block it names. Every pass is a
sequence of single edits: it inserts a primitive instruction, replaces a script instruction by one that also
defines a value, or by one that also does not, or lets a call take a checked callee. So an instruction keeps its
number, its block and its place among those that were there before it.
-/

namespace ScriptEngine.Lowering

open Graph State

variable {α β : Type} {g₀ g g' : Graph} {i : Instr} {id : InstrId} {b : BlockId}

/-! ### Single edits -/

/-- The call of the stub that checks a callee. -/
def IsCalleeCheck (i : Instr) : Prop :=
  i.op = .prim .callStub ∧ i.inputs = [.const (.stub "checkFunction"), raw 1]

inductive Edit (g g' : Graph) : Prop where
  | insert {anchor id : InstrId} {op : PrimOp} {inputs : List Input} :
    g.insertBefore anchor (.prim op) inputs = .ok (id, g') → Edit g g'
  | lower {i : Instr} {op : Op} {inputs : List Input} : g.instr i.id = .ok i → i.op.isPrim = false →
    op ≠ .prim .call → op.info.output = i.op.info.output → g.replace i.id op inputs = .ok g' → Edit g g'
  | check {i stub : Instr} : g.instr i.id = .ok i → i.op = .prim .call → g.instr stub.id = .ok stub →
    IsCalleeCheck stub → g.replace i.id i.op (.value stub.id :: i.inputs.drop 1) = .ok g' → Edit g g'

theorem instr_eq_ok : g.instr id = .ok i ↔ g.instrs[id.index]? = some i := by
  unfold Graph.instr
  cases g.instrs[id.index]? <;> simp

theorem block_eq_ok {B : Block} : g.block b = .ok B ↔ g.blocks[b.index]? = some B := by
  unfold Graph.block
  cases g.blocks[b.index]? <;> simp

theorem insertBefore_eq_ok {anchor : InstrId} {op : Op} {inputs : List Input}
    (h : g.insertBefore anchor op inputs = .ok (id, g')) : ∃ i B, g.instr anchor = .ok i ∧ g.block i.block = .ok B ∧
      anchor ∈ B.instrs ∧ (id, g') = g.addInstr i.block op inputs (insertIn anchor) := by
  unfold Graph.insertBefore at h
  cases hi : g.instr anchor with
  | error e => rw [hi] at h; cases h
  | ok i =>
    rw [hi] at h
    cases hB : g.block i.block with
    | error e =>
      change (do let B ← g.block i.block; if anchor ∈ B.instrs then _ else _ : Except _ _) = _ at h
      rw [hB] at h
      cases h
    | ok B =>
      change (do let B ← g.block i.block; if anchor ∈ B.instrs then _ else _ : Except _ _) = _ at h
      rw [hB] at h
      change (if anchor ∈ B.instrs then _ else _) = _ at h
      split at h
      case isTrue hmem => exact ⟨i, B, rfl, hB, hmem, (Except.ok.inj h).symm⟩
      case isFalse => cases h

theorem replace_eq_ok {op : Op} {inputs : List Input} (h : g.replace id op inputs = .ok g') :
    ∃ i, g.instr id = .ok i ∧ g' = { g with instrs := g.instrs.modify id.index ({ · with op, inputs }) } := by
  unfold Graph.replace at h
  cases hi : g.instr id with
  | error e => rw [hi] at h; cases h
  | ok i =>
    rw [hi] at h
    exact ⟨i, rfl, (Except.ok.inj h).symm⟩

/-! ### What an edit keeps -/

/-- An instruction as it is found while lowering is going on. -/
def Becomes (i j : Instr) : Prop :=
  j.id = i.id ∧ j.block = i.block ∧
    match i.op with
    | .script _ => j.op.info.output = i.op.info.output
    | .prim .call => j.op = i.op ∧ j.inputs.drop 1 = i.inputs.drop 1
    | .prim _ => j.op = i.op ∧ j.inputs = i.inputs

theorem Becomes.refl (i : Instr) : Becomes i i := by
  refine ⟨rfl, rfl, ?_⟩
  split
  · rfl
  · exact ⟨rfl, rfl⟩
  · exact ⟨rfl, rfl⟩

section

variable {j : Instr} (h : Becomes i j)

include h

theorem Becomes.eq (hop : i.op.isPrim = true) (hne : i.op ≠ .prim .call) : j = i := by
  obtain ⟨hid, hblock, hcase⟩ := h
  split at hcase
  case h_1 hscript =>
    rw [hscript] at hop
    cases hop
  case h_2 hcall => exact absurd hcall hne
  case h_3 =>
    cases i
    cases j
    simp_all

theorem Becomes.call (hop : i.op = .prim .call) : j.op = .prim .call ∧ j.inputs.drop 1 = i.inputs.drop 1 := by
  obtain ⟨-, -, hcase⟩ := h
  rw [hop] at hcase
  exact hcase

theorem Becomes.output (hop : i.op.isPrim = false) : j.op.info.output = i.op.info.output := by
  obtain ⟨-, -, hcase⟩ := h
  cases hi : i.op with
  | script op =>
    rw [hi] at hcase
    exact hcase
  | prim op =>
    rw [hi] at hop
    cases hop

end

/-- `g` is `g₀` with instructions inserted, and some of its own replaced. -/
structure Grown (g₀ g : Graph) : Prop where
  listed : g.Listed
  name : g.name = g₀.name
  params : g.params = g₀.params
  blocks : g.blocks.size = g₀.blocks.size
  successors : ∀ b, g.successors b = g₀.successors b
  size : g₀.instrs.size ≤ g.instrs.size
  order : ∀ b, (g.listing b).filter (·.index < g₀.instrs.size) = g₀.listing b
  old : ∀ {k : Nat} {i}, g₀.instrs[k]? = some i → ∃ j, g.instrs[k]? = some j ∧ Becomes i j

theorem Grown.refl (hl : g.Listed) : Grown g g where
  listed := hl
  name := rfl
  params := rfl
  blocks := rfl
  successors _ := rfl
  size := le_rfl
  order b := List.filter_eq_self.mpr fun id hid => by
    obtain ⟨i, hi, -⟩ := hl.found b id hid
    exact decide_eq_true (Array.getElem?_eq_some_iff.mp hi).1
  old hi := ⟨_, hi, .refl _⟩

theorem filter_insertIn {p : InstrId → Bool} {anchor new : InstrId} (hnew : p new = false) (ids : List InstrId) :
    (insertIn anchor new ids).filter p = ids.filter p := by
  induction ids with
  | nil => rfl
  | cons id rest ih =>
    rw [insertIn]
    split
    · rw [List.filter_cons, hnew, if_neg Bool.false_ne_true]
    · rw [List.filter_cons, List.filter_cons, ih]

theorem listing_addInstr {op : Op} {inputs : List Input} {anchor : InstrId} (b' : BlockId) :
    (g.addInstr b op inputs (insertIn anchor)).2.listing b' =
      if b' = b then insertIn anchor g.nextInstr (g.listing b') else g.listing b' := by
  by_cases hb : b' = b
  · subst hb
    rw [if_pos rfl]
    simp only [addInstr, listing, Array.getD_eq_getD_getElem?, Array.getElem?_modify, if_pos]
    cases g.blocks[b'.index]? <;> rfl
  · have hne : b.index ≠ b'.index := fun h => hb (by cases b'; cases b; simpa using h.symm)
    rw [if_neg hb]
    simp only [addInstr, listing, Array.getD_eq_getD_getElem?, Array.getElem?_modify, if_neg hne]

/-- What an insertion does. -/
structure Inserts (g g' : Graph) (id : InstrId) (op : PrimOp) (inputs : List Input) : Prop where
  edits : ∃ b code, Edits g g' b code
  id_eq : id = ⟨g.instrs.size⟩
  name : g'.name = g.name
  params : g'.params = g.params
  order : ∀ (b : BlockId) {n : Nat}, n ≤ g.instrs.size →
    (g'.listing b).filter (·.index < n) = (g.listing b).filter (·.index < n)
  old : ∀ {id' : InstrId} {i}, g.instr id' = .ok i → g'.instr id' = .ok i
  new : ∃ b, g'.instr id = .ok ⟨id, .prim op, inputs, b⟩

theorem inserts (hl : g.Listed) {anchor : InstrId} {op : PrimOp} {inputs : List Input}
    (h : g.insertBefore anchor (.prim op) inputs = .ok (id, g')) : Inserts g g' id op inputs := by
  obtain ⟨i, B, hi, hB, hmem, hadd⟩ := insertBefore_eq_ok h
  obtain ⟨rfl, rfl⟩ : id = g.nextInstr ∧ g' = (g.addInstr i.block (.prim op) inputs (insertIn anchor)).2 :=
    Prod.mk.inj hadd
  rw [instr_eq_ok] at hi
  have hlt : anchor.index < g.instrs.size := (Array.getElem?_eq_some_iff.mp hi).1
  have hid : i.id = anchor := hl.numbered _ _ hi
  subst hid
  have hplaced : i.id ∈ g.listing i.block := hl.placed _ _ hi
  obtain ⟨pre, post, hcode⟩ := List.append_of_mem (hl.mem_code_iff.mpr ⟨hplaced, hi⟩)
  obtain ⟨id', g', hok, rfl, hedits⟩ := insertBefore_ok hl hcode op inputs
  have hsame : g' = (g.addInstr i.block (.prim op) inputs (insertIn i.id)).2 := by
    unfold insertBefore change at hok
    simp only [h] at hok
    exact ((EStateM.Result.ok.inj hok).2).symm
  refine ⟨⟨_, _, hsame ▸ hedits⟩, rfl, rfl, rfl, fun b n hn => ?_, fun hi' => ?_, i.block, ?_⟩
  · rw [listing_addInstr]
    split
    · exact filter_insertIn (decide_eq_false (by simpa [nextInstr] using hn)) _
    · rfl
  · rw [instr_eq_ok] at hi' ⊢
    have hlt' := (Array.getElem?_eq_some_iff.mp hi').1
    change (g.instrs.push _)[_]? = _
    rw [Array.getElem?_push, if_neg hlt'.ne, hi']
  · rw [instr_eq_ok]
    change (g.instrs.push _)[g.instrs.size]? = _
    rw [Array.getElem?_push, if_pos rfl]

/-- What a replacement does. -/
structure Swaps (g g' : Graph) (i : Instr) (op : Op) (inputs : List Input) : Prop where
  edits : ∃ b code, Edits g g' b code
  name : g'.name = g.name
  params : g'.params = g.params
  listing : ∀ b, g'.listing b = g.listing b
  old : ∀ id, id ≠ i.id → g'.instr id = g.instr id
  new : g'.instr i.id = .ok { i with op, inputs }

theorem swaps (hl : g.Listed) {op : Op} {inputs : List Input} (hi : g.instr i.id = .ok i)
    (h : g.replace i.id op inputs = .ok g') : Swaps g g' i op inputs := by
  obtain ⟨_, -, rfl⟩ := replace_eq_ok h
  rw [instr_eq_ok] at hi
  obtain ⟨pre, post, hcode⟩ := List.append_of_mem (hl.mem_code_iff.mpr ⟨hl.placed _ _ hi, hi⟩)
  obtain ⟨_, g', hok, hedits⟩ := replace_ok hl hcode op inputs
  have hsame : g' = { g with instrs := g.instrs.modify i.id.index ({ · with op, inputs }) } := by
    unfold replace change at hok
    simp only [h] at hok
    exact ((EStateM.Result.ok.inj hok).2).symm
  refine ⟨⟨_, _, hsame ▸ hedits⟩, rfl, rfl, fun _ => rfl, fun id hne => ?_, ?_⟩
  · have hindex : i.id.index ≠ id.index := fun h => hne (by cases id; cases hii : i.id; rw [hii] at h; simpa using h.symm)
    unfold Graph.instr
    simp only [Array.getElem?_modify, if_neg hindex]
  · rw [instr_eq_ok, Array.getElem?_modify, if_pos rfl, hi]
    rfl

theorem Edit.listed (hl : g.Listed) (h : Edit g g') : g'.Listed := by
  cases h with
  | insert h =>
    obtain ⟨_, _, hedits⟩ := (inserts hl h).edits
    exact hedits.listed
  | lower hi _ _ _ h =>
    obtain ⟨_, _, hedits⟩ := (swaps hl hi h).edits
    exact hedits.listed
  | check hi _ _ _ h =>
    obtain ⟨_, _, hedits⟩ := (swaps hl hi h).edits
    exact hedits.listed

/-- An instruction that was replaced by one of the same kind. -/
theorem Becomes.swap {j : Instr} (h : Becomes i j) {op : Op} {inputs : List Input}
    (hscript : j.op.isPrim = false → op.info.output = j.op.info.output)
    (hprim : j.op.isPrim = true → j.op = .prim .call ∧ op = j.op ∧ inputs.drop 1 = j.inputs.drop 1) :
    Becomes i { j with op, inputs } := by
  obtain ⟨hid, hblock, hbecomes⟩ := h
  refine ⟨hid, hblock, ?_⟩
  split at hbecomes
  case h_1 hop =>
    cases hj : j.op.isPrim with
    | false => exact (hscript hj).trans hbecomes
    | true => exact (congrArg (fun op : Op => op.info.output) (hprim hj).2.1).trans hbecomes
  case h_2 hop =>
    obtain ⟨-, hsame, hdrop⟩ := hprim (by rw [hbecomes.1, hop]; rfl)
    exact ⟨hsame.trans hbecomes.1, hdrop.trans hbecomes.2⟩
  case h_3 hne hop =>
    obtain ⟨hcall, -⟩ := hprim (by rw [hbecomes.1, hop]; rfl)
    rw [hbecomes.1, hop] at hcall
    exact absurd (Op.prim.inj hcall) hne

theorem Grown.swap (h : Grown g₀ g) {j : Instr} {op : Op} {inputs : List Input} (hj : g.instr j.id = .ok j)
    (hs : Swaps g g' j op inputs) (hbecomes : ∀ i, Becomes i j → Becomes i { j with op, inputs }) : Grown g₀ g' := by
  obtain ⟨b, code, hedits⟩ := hs.edits
  exact {
    listed := hedits.listed
    name := hs.name.trans h.name
    params := hs.params.trans h.params
    blocks := hedits.blocks.trans h.blocks
    successors := fun b' => (hedits.successors b').trans (h.successors b')
    size := h.size.trans hedits.instrs
    order := fun b' => by rw [hs.listing, h.order]
    old := fun {k i} hi => by
      obtain ⟨j', hj', hbecomes'⟩ := h.old hi
      by_cases hk : k = j.id.index
      · subst hk
        obtain rfl : j = j' := Option.some.inj ((instr_eq_ok.mp hj).symm.trans hj')
        exact ⟨_, instr_eq_ok.mp hs.new, hbecomes i hbecomes'⟩
      · have hold := hs.old ⟨k⟩ fun heq => hk (congrArg InstrId.index heq)
        exact ⟨j', instr_eq_ok.mp (hold.trans (instr_eq_ok.mpr hj')), hbecomes'⟩ }

/-- Every edit keeps what has been kept so far. -/
theorem Grown.edit (h : Grown g₀ g) (he : Edit g g') : Grown g₀ g' := by
  cases he with
  | insert hok =>
    have hins := inserts h.listed hok
    obtain ⟨b, code, hedits⟩ := hins.edits
    exact {
      listed := hedits.listed
      name := hins.name.trans h.name
      params := hins.params.trans h.params
      blocks := hedits.blocks.trans h.blocks
      successors := fun b' => (hedits.successors b').trans (h.successors b')
      size := h.size.trans hedits.instrs
      order := fun b' => (hins.order b' h.size).trans (h.order b')
      old := fun hi => by
        obtain ⟨j, hj, hbecomes⟩ := h.old hi
        exact ⟨j, instr_eq_ok.mp (hins.old (instr_eq_ok.mpr hj)), hbecomes⟩ }
  | lower hi hscript _ houtput hok =>
    exact h.swap hi (swaps h.listed hi hok) fun _ hb => hb.swap (fun _ => houtput) fun hprim => by
      rw [hscript] at hprim
      cases hprim
  | check hi hcall _ _ hok =>
    exact h.swap hi (swaps h.listed hi hok) fun _ hb => hb.swap (fun _ => rfl) fun _ => ⟨hcall, rfl, by simp⟩

/-! ### Checked calls -/

/-- If the instruction is a call, its callee is the answer of a check. -/
def Guarded (g : Graph) (id : InstrId) : Prop :=
  ∃ i, g.instr id = .ok i ∧ (i.op = .prim .call →
    ∃ stub, g.instr stub.id = .ok stub ∧ IsCalleeCheck stub ∧ i.inputs.head? = some (.value stub.id))

/-- The check of a callee is no instruction that an edit replaces. -/
theorem IsCalleeCheck.kept {j stub : Instr} {op : Op} {inputs : List Input} (h : IsCalleeCheck stub)
    (hj : j.op.isPrim = false ∨ j.op = .prim .call) (hgj : g.instr j.id = .ok j) (hstub : g.instr stub.id = .ok stub)
    (hs : Swaps g g' j op inputs) : g'.instr stub.id = .ok stub := by
  refine (hs.old _ fun heq => ?_).trans hstub
  rw [heq, hgj] at hstub
  obtain rfl : j = stub := Except.ok.inj hstub
  rw [h.1] at hj
  rcases hj with hj | hj <;> cases hj

theorem Guarded.swap {j : Instr} {op : Op} {inputs : List Input} (h : Guarded g id) (hl : g.Listed)
    (hj : j.op.isPrim = false ∨ j.op = .prim .call) (hgj : g.instr j.id = .ok j) (hs : Swaps g g' j op inputs)
    (hnew : op = .prim .call → ∃ stub, g.instr stub.id = .ok stub ∧ IsCalleeCheck stub ∧
      inputs.head? = some (.value stub.id)) : Guarded g' id := by
  obtain ⟨i, hi, hguard⟩ := h
  have hid : i.id = id := hl.numbered _ _ (instr_eq_ok.mp hi)
  subst hid
  by_cases heq : i.id = j.id
  · rw [heq]
    refine ⟨_, hs.new, fun hop => ?_⟩
    obtain ⟨stub, hstub, hchecks, hhead⟩ := hnew hop
    exact ⟨stub, hchecks.kept hj hgj hstub hs, hchecks, hhead⟩
  · refine ⟨i, (hs.old _ heq).trans hi, fun hop => ?_⟩
    obtain ⟨stub, hstub, hchecks, hhead⟩ := hguard hop
    exact ⟨stub, hchecks.kept hj hgj hstub hs, hchecks, hhead⟩

theorem Guarded.edit (h : Guarded g id) (hl : g.Listed) (he : Edit g g') : Guarded g' id := by
  cases he with
  | insert hok =>
    obtain ⟨i, hi, hguard⟩ := h
    have hins := inserts hl hok
    refine ⟨i, hins.old hi, fun hcall => ?_⟩
    obtain ⟨stub, hstub, hchecks⟩ := hguard hcall
    exact ⟨stub, hins.old hstub, hchecks⟩
  | lower hj hscript hop _ hok => exact h.swap hl (.inl hscript) hj (swaps hl hj hok) fun hcall => absurd hcall hop
  | check hj hcall hstub hchecks hok =>
    exact h.swap hl (.inr hcall) hj (swaps hl hj hok) fun _ => ⟨_, hstub, hchecks, rfl⟩

/-! ### Sequences of edits -/

abbrev Edited : Graph → Graph → Prop := Relation.ReflTransGen Edit

theorem Edited.listed (h : Edited g g') (hl : g.Listed) : g'.Listed := by
  induction h with
  | refl => exact hl
  | tail _ he ih => exact he.listed ih

theorem Edited.grown (h : Edited g g') (hl : g.Listed) : Grown g g' := by
  induction h with
  | refl => exact .refl hl
  | tail _ he ih => exact ih.edit he

theorem Guarded.edited (h : Guarded g id) (hl : g.Listed) (he : Edited g g') : Guarded g' id := by
  induction he with
  | refl => exact h
  | tail hs he ih => exact ih.edit (Edited.listed hs hl) he

/-- Steps that, where they succeed, come down to edits, from graphs with `P` to answers with `Q`. -/
def Editing (P : Graph → Prop) (x : LowerM α) (Q : α → Graph → Prop) : Prop :=
  ∀ g a g', g.Listed → P g → x g = .ok a g' → Edited g g' ∧ Q a g'

namespace Editing

variable {P P' : Graph → Prop} {Q Q' : α → Graph → Prop} {R : β → Graph → Prop} {x : LowerM α} {f : α → LowerM β}

theorem bind (hx : Editing P x Q) (hf : ∀ a, Editing (Q a) (f a) R) : Editing P (x >>= f) R := by
  intro g b g' hl hP hok
  obtain ⟨a, g₁, hx', hf'⟩ := bind_eq_ok.mp hok
  obtain ⟨hedited, hQ⟩ := hx _ _ _ hl hP hx'
  obtain ⟨hedited', hR⟩ := hf a _ _ _ (hedited.listed hl) hQ hf'
  exact ⟨hedited.trans hedited', hR⟩

theorem pure {a : α} (h : ∀ g, P g → Q a g) : Editing P (Pure.pure a) Q := by
  intro g b g' _ hP hok
  obtain ⟨rfl, rfl⟩ := pure_eq_ok.mp hok
  exact ⟨.refl, h g hP⟩

theorem done : Editing P (Pure.pure ()) fun _ _ => True := pure fun _ _ => trivial

theorem mono (hx : Editing P x Q) (hP : ∀ g, P' g → P g) (hQ : ∀ a g, Q a g → Q' a g) : Editing P' x Q' :=
  fun _ _ _ hl hP' hok => (hx _ _ _ hl (hP _ hP') hok).imp_right (hQ _ _)

theorem throw (e : CompileError) : Editing P (throw e) Q := fun _ _ _ _ _ hok => nomatch hok

theorem ask {question : Except GraphError α} (hf : ∀ a, question = .ok a → Editing P (f a) R) :
    Editing P (ask question >>= f) R := by
  cases hq : question with
  | ok a => exact hf a hq
  | error e => exact fun _ _ _ _ _ hok => nomatch hok

theorem get {f : Graph → LowerM β} (hf : ∀ g, P g → Editing (fun g' => g' = g) (f g) R) : Editing P (get >>= f) R :=
  fun g _ _ hl hP hok => hf g hP _ _ _ hl rfl hok

theorem instrOf {f : Instr → LowerM β} (hf : ∀ i, i.id = id → Editing (fun g => P g ∧ g.instr i.id = .ok i) (f i) R) :
    Editing P (instrOf id >>= f) R := by
  intro g b g' hl hP hok
  obtain ⟨i, g₁, hi, hfi⟩ := bind_eq_ok.mp hok
  have hrun : (Lowering.ask (g.instr id)) g = .ok i g₁ := hi
  cases hget : g.instr id with
  | error e =>
    rw [hget] at hrun
    cases hrun
  | ok i' =>
    rw [hget] at hrun
    obtain ⟨rfl, rfl⟩ := pure_eq_ok.mp hrun
    have hid : i'.id = id := hl.numbered _ _ (instr_eq_ok.mp hget)
    exact hf i' hid _ _ _ hl ⟨hP, hid.symm ▸ hget⟩ hfi

/-- Properties of instructions that are there. -/
def Stable (P : Graph → Prop) : Prop :=
  ∀ {g g'}, (∀ {id i}, g.instr id = .ok i → g'.instr id = .ok i) → P g → P g'

/-- An insertion leaves the instructions alone that are there. -/
theorem insertNew (hP : Stable P) (anchor : InstrId) (op : PrimOp) (inputs : List Input) :
    Editing P (insertBefore anchor op inputs) fun id g => P g ∧ ∃ b, g.instr id = .ok ⟨id, .prim op, inputs, b⟩ := by
  intro g id g' hl hPg hok
  unfold insertBefore change at hok
  cases hins : g.insertBefore anchor (.prim op) inputs with
  | error e =>
    simp only [hins] at hok
    cases hok
  | ok r =>
    simp only [hins] at hok
    cases hok
    have h := inserts hl hins
    exact ⟨.single (.insert hins), hP h.old hPg, h.new⟩

theorem insert (anchor : InstrId) (op : PrimOp) (inputs : List Input) :
    Editing (fun g => g.instr i.id = .ok i) (insertBefore anchor op inputs) fun _ g => g.instr i.id = .ok i :=
  (insertNew (fun hold h => hold h) anchor op inputs).mono (fun _ h => h) fun _ _ h => h.1

theorem literal (anchor : InstrId) (c : Const) :
    Editing (fun g => g.instr i.id = .ok i) (literalBefore anchor c) fun _ g => g.instr i.id = .ok i :=
  insert anchor .literal [.const c]

/-- An instruction whose result nobody asks for. -/
theorem skip (hP : Stable P) (anchor : InstrId) (op : PrimOp) (inputs : List Input) :
    Editing P (discard (insertBefore anchor op inputs)) fun _ => P := by
  intro g u g' hl hPg hok
  obtain ⟨id, hins⟩ := discard_eq_ok.mp hok
  exact (insertNew hP anchor op inputs _ _ _ hl hPg hins).imp_right And.left

theorem push (anchor : InstrId) (v : Input) :
    Editing (fun g => g.instr i.id = .ok i) (pushBefore anchor v) fun _ g => g.instr i.id = .ok i :=
  skip (fun hold h => hold h) anchor .push [v]

theorem replace {op : Op} {inputs : List Input} (hscript : i.op.isPrim = false) (hop : op ≠ .prim .call)
    (houtput : op.info.output = i.op.info.output) :
    Editing (fun g => g.instr i.id = .ok i) (replace i.id op inputs) fun _ _ => True := by
  intro g u g' hl hi hok
  unfold Lowering.replace change at hok
  cases hrep : g.replace i.id op inputs with
  | error e =>
    simp only [hrep] at hok
    cases hok
  | ok g₁ =>
    simp only [hrep] at hok
    cases hok
    exact ⟨.single (.lower hi hscript hop houtput hrep), trivial⟩

theorem toStubCall {stub : String} {argc : Nat} (hscript : i.op.isPrim = false) (houtput : i.op.info.output = true) :
    Editing (fun g => g.instr i.id = .ok i) (toStubCall i.id stub argc) fun _ _ => True :=
  replace hscript (fun h => nomatch h) houtput.symm

theorem forM {step : α → LowerM PUnit} (hstep : ∀ a, Editing (fun _ => True) (step a) fun _ _ => True) :
    ∀ todo : List α, Editing (fun _ => True) (todo.forM step) fun _ _ => True
  | [] => .done
  | a :: rest => .bind (hstep a) fun _ => forM hstep rest

/-- A pass that looks at one instruction after another. -/
theorem forBlock {step : Instr → LowerM Unit}
    (hstep : ∀ i, Editing (fun g => g.instr i.id = .ok i) (step i) fun _ _ => True) (b : BlockId) :
    Editing (fun _ => True) (forBlock b step) fun _ _ => True :=
  .get fun _ _ => .ask fun B _ => (forM (fun _ => .instrOf fun i _ => (hstep i).mono (fun _ h => h.2) fun _ _ h => h)
    B.instrs).mono (fun _ _ => trivial) fun _ _ h => h

end Editing

/-! ### Passes -/

theorem propertyOp_output {op : Op} {op' : ScriptOp} (h : propertyOp? op = some op') :
    op.isPrim = false ∧ (Op.script op').info.output = op.info.output := by
  unfold propertyOp? at h
  split at h <;> cases h <;> exact ⟨rfl, rfl⟩

theorem editing_globals (b : BlockId) : Editing (fun _ => True) (lowerGlobals b) fun _ _ => True := by
  refine .forBlock (fun i => ?_) b
  cases hop : propertyOp? i.op with
  | none => exact .done
  | some op =>
    obtain ⟨hscript, houtput⟩ := propertyOp_output hop
    exact .ask fun name _ => .bind (.insert _ _ _) fun _ => .bind (.insert _ _ _) fun _ =>
      .replace hscript (fun h => nomatch h) houtput

theorem editing_closures (b : BlockId) : Editing (fun _ => True) (lowerClosures b) fun _ _ => True := by
  refine .forBlock (fun i => ?_) b
  split
  case isTrue hop =>
    exact .ask fun index _ => .bind (.insert _ _ _) fun _ => .bind (.push _ _) fun _ =>
      .toStubCall (by rw [hop]; rfl) (by rw [hop]; rfl)
  case isFalse => exact .done

theorem editing_smiOf (input : Input) : Editing (fun g => g.instr i.id = .ok i) (smiOf? input)
    fun _ g => g.instr i.id = .ok i := by
  cases input with
  | const c =>
    refine .bind (Q := fun _ g => g.instr i.id = .ok i) (.pure fun _ h => h) fun constant => ?_
    dsimp only
    split <;> exact .pure fun _ h => h
  | value id =>
    refine .instrOf fun j _ => .mono ?_ (fun _ h => h.1) fun _ _ h => h
    split
    · refine .ask fun c _ => .bind (Q := fun _ g => g.instr i.id = .ok i) (.pure fun _ h => h) fun constant => ?_
      dsimp only
      split <;> exact .pure fun _ h => h
    · refine .bind (Q := fun _ g => g.instr i.id = .ok i) (.pure fun _ h => h) fun constant => ?_
      dsimp only
      split <;> exact .pure fun _ h => h

theorem editing_elements (array : InstrId) (length : Int) : ∀ ids : List InstrId,
    Editing (fun _ => True) (lowerElements array length ids) fun _ _ => True
  | [] => .done
  | id :: rest => by
    rw [lowerElements]
    refine .instrOf fun i hid => ?_
    split
    case isTrue => exact (editing_elements array length rest).mono (fun _ _ => trivial) fun _ _ h => h
    split
    case isTrue => exact .done
    case isFalse hop =>
    rw [not_not] at hop
    refine .ask fun object _ => ?_
    split
    case isTrue => exact .done
    refine .ask fun key _ => .ask fun value _ => .bind (Q := fun _ g => g.instr i.id = .ok i)
      ((editing_smiOf key).mono (fun _ h => h.2) fun _ _ h => h) fun smi => ?_
    cases smi with
    | none => exact .done
    | some index =>
      simp only
      split
      case isTrue =>
        subst hid
        exact .bind (.literal _ _) fun _ => .bind (.push _ _) fun _ => .bind (.push _ _) fun _ =>
          .bind (.push _ _) fun _ => .bind (.push _ _) fun _ =>
          .bind (.toStubCall (by rw [hop]; rfl) (by rw [hop]; rfl)) fun _ => editing_elements array length rest
      case isFalse => exact .done

theorem editing_objects (b : BlockId) : Editing (fun _ => True) (lowerObjects b) fun _ _ => True := by
  refine .forBlock (fun i => ?_) b
  unfold lowerObject
  split
  case h_1 hop => exact .toStubCall (by rw [hop]; rfl) (by rw [hop]; rfl)
  case h_2 hop =>
    exact .ask fun count _ => .bind (.literal _ _) fun _ => .bind (.push _ _) fun _ =>
      .bind (.toStubCall (by rw [hop]; rfl) (by rw [hop]; rfl)) fun _ => .get fun _ _ => .ask fun B _ =>
        (editing_elements i.id count _).mono (fun _ _ => trivial) fun _ _ h => h
  case h_3 hop =>
    refine .ask fun callee _ => .ask fun argc _ => ?_
    split
    · exact .bind (.throw (Q := fun _ _ => False) _) fun _ _ _ _ _ h => h.elim
    · exact .bind (.literal _ _) fun _ => .bind (.push _ _) fun _ => .bind (.push _ _) fun _ =>
        .toStubCall (by rw [hop]; rfl) (by rw [hop]; rfl)
  case h_4 => exact .done

/-- A lookup asks whether its key is a literal, and then only inserts. -/
theorem editing_lookup (object key : Input) (update : Bool) : Editing (fun g => g.instr i.id = .ok i)
    (lookupSlot i.id object key update) fun _ g => g.instr i.id = .ok i := by
  have hrest : ∀ literal : Bool, Editing (fun g => g.instr i.id = .ok i) (do
      let kind : CacheKind := if literal then .fixed else .normal
      let update ← literalBefore i.id (.bool update)
      pushBefore i.id update
      pushBefore i.id key
      pushBefore i.id object
      insertBefore i.id .callStub [.const (.cache kind), raw 3]) fun _ g => g.instr i.id = .ok i := fun literal =>
    .bind (.literal _ _) fun _ => .bind (.push _ _) fun _ => .bind (.push _ _) fun _ => .bind (.push _ _) fun _ =>
      .insert _ _ _
  refine .bind (Q := fun _ g => g.instr i.id = .ok i) ?_ hrest
  unfold isLiteral
  split
  · exact .pure fun _ h => h
  · exact .instrOf fun _ _ => .pure fun _ h => h.1

theorem editing_properties (b : BlockId) : Editing (fun _ => True) (lowerProperties b) fun _ _ => True := by
  refine .forBlock (fun i => ?_) b
  split
  case h_1 hop =>
    exact .ask fun object _ => .ask fun key _ => .bind (editing_lookup _ _ _) fun _ => .bind (.push _ _) fun _ =>
      .bind (.push _ _) fun _ => .bind (.push _ _) fun _ => .toStubCall (by rw [hop]; rfl) (by rw [hop]; rfl)
  case h_2 hop =>
    exact .ask fun object _ => .ask fun key _ => .ask fun value _ => .bind (editing_lookup _ _ _) fun _ =>
      .bind (.push _ _) fun _ => .bind (.push _ _) fun _ => .bind (.push _ _) fun _ => .bind (.push _ _) fun _ =>
      .toStubCall (by rw [hop]; rfl) (by rw [hop]; rfl)
  case h_3 hop =>
    exact .ask fun object _ => .ask fun key _ => .bind (.push _ _) fun _ => .bind (.push _ _) fun _ =>
      .toStubCall (by rw [hop]; rfl) (by rw [hop]; rfl)
  case h_4 => exact .done

theorem editing_operators (b : BlockId) : Editing (fun _ => True) (lowerOperators b) fun _ _ => True := by
  refine .forBlock (fun i => ?_) b
  split
  case h_1 hop =>
    refine .ask fun c _ => ?_
    split
    · exact .ask fun v _ => .bind (.push _ _) fun _ => .toStubCall (by rw [hop]; rfl) (by rw [hop]; rfl)
    · exact .throw _
  case h_2 hop =>
    refine .ask fun c _ => ?_
    split
    · exact .ask fun left _ => .ask fun right _ => .bind (.push _ _) fun _ => .bind (.push _ _) fun _ =>
        .toStubCall (by rw [hop]; rfl) (by rw [hop]; rfl)
    · exact .throw _
  case h_3 => exact .done

theorem editing_branches (b : BlockId) : Editing (fun _ => True) (lowerBranches b) fun _ _ => True := by
  refine .forBlock (fun i => ?_) b
  split
  case isTrue hop =>
    exact .ask fun v _ => .bind (.push _ _) fun _ => .bind (.insert _ _ _) fun _ =>
      .replace (by rw [hop]; rfl) (fun h => nomatch h) (by rw [hop]; rfl)
  case isFalse => exact .done

/-! ### Calls -/

theorem guarded_of_ne (hi : g.instr i.id = .ok i) (hop : i.op ≠ .prim .call) : Guarded g i.id :=
  ⟨i, hi, fun hcall => absurd hcall hop⟩

/-- A call takes the answer of a check for its callee. -/
theorem editing_check (stub : Instr) (hop : i.op = .prim .call) (hchecks : IsCalleeCheck stub) :
    Editing (fun g => g.instr i.id = .ok i ∧ g.instr stub.id = .ok stub)
      (replace i.id (.prim .call) (.value stub.id :: i.inputs.drop 1)) fun _ g => Guarded g i.id := by
  intro g u g' hl ⟨hi, hstub⟩ hok
  unfold replace change at hok
  cases hrep : g.replace i.id (.prim .call) (.value stub.id :: i.inputs.drop 1) with
  | error e =>
    simp only [hrep] at hok
    cases hok
  | ok g₁ =>
    simp only [hrep] at hok
    cases hok
    have hs := swaps hl hi hrep
    exact ⟨.single (.check hi hop hstub hchecks (hop ▸ hrep)), _, hs.new, fun _ =>
      ⟨stub, hchecks.kept (.inr hop) hi hstub hs, hchecks, rfl⟩⟩

theorem editing_prologue (call anchor : InstrId) :
    Editing (fun _ => True) (prologue call anchor) fun _ g => Guarded g call := by
  refine .instrOf fun i hid => ?_
  subst hid
  split
  case h_1 hop =>
    refine .ask fun argc _ => .ask fun callee _ => .bind (.skip (fun hold h => h.imp_right fun h => hold h) _ _ _) fun _ =>
      .bind (.skip (fun hold h => h.imp_right fun h => hold h) _ _ _) fun _ =>
      .bind (.insertNew (fun hold h => h.imp_right fun h => hold h) _ _ _) fun checked =>
      .bind (.skip (fun hold h => ⟨⟨h.1.1, hold h.1.2⟩, h.2.imp fun b h => hold h⟩) _ _ _) fun _ => ?_
    intro g u g' hl ⟨⟨_, hi⟩, b, hstub⟩ hok
    exact editing_check ⟨checked, _, _, b⟩ hop ⟨rfl, rfl⟩ _ _ _ hl ⟨hi, hstub⟩ hok
  case h_2 hop =>
    refine .ask fun argc _ => (Editing.skip (fun hold h => h.imp_right fun h => hold h) _ _ _).mono (fun _ h => h)
      fun _ _ h => guarded_of_ne h.2 hop

/-- The instruction is a call that is no longer without a check, or waits for one. -/
def Awaited (g : Graph) (pending : List PendingCall) (id : InstrId) : Prop :=
  Guarded g id ∨ ∃ p ∈ pending, p.call = id

theorem Awaited.edited {pending : List PendingCall} (h : Awaited g pending id) (hl : g.Listed) (he : Edited g g') :
    Awaited g' pending id := h.imp_left fun h => h.edited hl he

/-- An instruction that was met is a call that has its check, or that waits for pushes, or no call. -/
theorem editing_expect (pending : List PendingCall) : Editing (fun g => g.instr i.id = .ok i) (expectPushes pending i)
    fun pending' g => Awaited g pending' i.id ∧ ∀ p ∈ pending, Awaited g pending' p.call := by
  have hexpect : ∀ index, Editing (fun g => g.instr i.id = .ok i) (do
      let argc ← ask (i.rawInput index)
      if argc < 0 then throw (.internal i.op.name "negative argument count")
      else if argc = 0 then
        prologue i.id i.id
        return pending
      else return ⟨i.id, argc.toNat⟩ :: pending) fun pending' g =>
        Awaited g pending' i.id ∧ ∀ p ∈ pending, Awaited g pending' p.call := fun index => by
    refine .ask fun argc _ => ?_
    split
    · exact .throw _
    split
    · exact .bind ((editing_prologue i.id i.id).mono (fun _ _ => trivial) fun _ _ h => h) fun _ =>
        .pure fun g hguarded => ⟨.inl hguarded, fun p hp => .inr ⟨p, hp, rfl⟩⟩
    · exact .pure fun g _ => ⟨.inr ⟨_, .head _, rfl⟩, fun p hp => .inr ⟨p, .tail _ hp, rfl⟩⟩
  unfold expectPushes
  simp only
  split
  case h_1 => exact hexpect 2
  case h_2 => exact hexpect 1
  case h_3 hop =>
    have hne : i.op ≠ .prim .call := by rw [hop]; exact fun h => nomatch h
    cases pending with
    | nil => exact .throw _
    | cons top outer =>
      simp only
      split
      · intro g pending' g' hl hi hok
        obtain ⟨u, g₁, hprologue, hpure⟩ := bind_eq_ok.mp hok
        obtain ⟨rfl, rfl⟩ := pure_eq_ok.mp hpure
        obtain ⟨hedited, hguarded⟩ := editing_prologue top.call i.id _ _ _ hl trivial hprologue
        refine ⟨hedited, .inl ((guarded_of_ne hi hne).edited hl hedited), fun p hp => ?_⟩
        rcases List.mem_cons.mp hp with rfl | hp
        · exact .inl hguarded
        · exact .inr ⟨p, hp, rfl⟩
      · refine .pure fun g hi => ⟨.inl (guarded_of_ne hi hne), fun p hp => .inr ?_⟩
        rcases List.mem_cons.mp hp with rfl | hp
        · exact ⟨_, .head _, rfl⟩
        · exact ⟨p, .tail _ hp, rfl⟩
  case h_4 hcall _ _ => exact .pure fun g hi => ⟨.inl (guarded_of_ne hi hcall), fun p hp => .inr ⟨p, hp, rfl⟩⟩

theorem editing_foldlM : ∀ (ids : List InstrId) (pending : List PendingCall),
    Editing (fun _ => True) (ids.foldlM (fun pending id => do expectPushes pending (← instrOf id)) pending)
      fun pending' g => (∀ id ∈ ids, Awaited g pending' id) ∧ ∀ p ∈ pending, Awaited g pending' p.call
  | [], pending => .pure fun _ _ => ⟨by simp, fun p hp => .inr ⟨p, hp, rfl⟩⟩
  | id :: rest, pending => by
    intro g pending' g' hl _ hok
    rw [List.foldlM_cons] at hok
    obtain ⟨pending₁, g₁, hstep, hrest⟩ := bind_eq_ok.mp hok
    obtain ⟨hedited₁, hself, hwaiting⟩ := Editing.instrOf (P := fun _ => True) (fun i hid =>
      ((editing_expect pending).mono (fun _ h => h.2) fun _ _ h => hid ▸ h)) _ _ _ hl trivial hstep
    have hl₁ := hedited₁.listed hl
    obtain ⟨hedited₂, hmet, hwaiting₂⟩ := editing_foldlM rest pending₁ _ _ _ hl₁ trivial hrest
    -- What has its check keeps it, and what waits after the first instruction is settled by the others.
    have hlater : ∀ {id'}, Awaited g₁ pending₁ id' → Awaited g' pending' id' := by
      rintro id' (hguarded | ⟨p, hp, rfl⟩)
      · exact .inl (hguarded.edited hl₁ hedited₂)
      · exact hwaiting₂ p hp
    refine ⟨hedited₁.trans hedited₂, fun id' hid' => ?_, fun p hp => hlater (hwaiting p hp)⟩
    rcases List.mem_cons.mp hid' with rfl | hid'
    · exact hlater hself
    · exact hmet id' hid'

theorem lowerCalls_guards {u : Unit} (hl : g.Listed) (hok : lowerCalls b g = .ok u g') :
    Edited g g' ∧ ∀ id ∈ g.listing b, Guarded g' id := by
  unfold lowerCalls at hok
  rw [get_bind] at hok
  cases hB : g.block b with
  | error e =>
    rw [hB] at hok
    cases hok
  | ok B =>
    rw [hB] at hok
    obtain ⟨pending, g₁, hfold, hend⟩ := bind_eq_ok.mp (show (B.instrs.reverse.foldlM _ [] >>= _ : LowerM Unit) g = _ from hok)
    obtain ⟨hedited, hmet, -⟩ := editing_foldlM _ _ _ _ _ hl trivial hfold
    cases pending with
    | cons top _ => cases hend
    | nil =>
      obtain ⟨-, rfl⟩ := pure_eq_ok.mp hend
      refine ⟨hedited, fun id hid => (hmet id ?_).resolve_right (by simp)⟩
      have hlisting : g.listing b = B.instrs := by
        rw [listing, Array.getD_eq_getD_getElem?, block_eq_ok.mp hB]
        rfl
      exact List.mem_reverse.mpr (hlisting ▸ hid)

theorem forM_lowerCalls : ∀ (blocks : List BlockId) {g g' : Graph} {u : Unit}, g.Listed →
    blocks.forM lowerCalls g = .ok u g' → Edited g g' ∧ ∀ b ∈ blocks, ∀ id ∈ g.listing b, Guarded g' id
  | [], g, g', u, _, hok => by
    obtain ⟨-, rfl⟩ := pure_eq_ok.mp (show (Pure.pure PUnit.unit : LowerM PUnit) g = _ from hok)
    exact ⟨.refl, by simp⟩
  | b :: rest, g, g', u, hl, hok => by
    obtain ⟨_, g₁, hfirst, hrest⟩ := bind_eq_ok.mp (show (lowerCalls b >>= fun _ => rest.forM lowerCalls) g = _ from hok)
    obtain ⟨hedited₁, hguards₁⟩ := lowerCalls_guards hl hfirst
    have hl₁ := hedited₁.listed hl
    obtain ⟨hedited₂, hguards₂⟩ := forM_lowerCalls rest hl₁ hrest
    refine ⟨hedited₁.trans hedited₂, fun b' hb' id hid => ?_⟩
    rcases List.mem_cons.mp hb' with rfl | hb'
    · exact (hguards₁ id hid).edited hl₁ hedited₂
    · refine hguards₂ b' hb' id ?_
      rw [← (hedited₁.grown hl).order b'] at hid
      exact (List.mem_filter.mp hid).1

/-! ### The passes together -/

theorem runPasses_editing {blocks : List BlockId} :
    ∀ {todo : List Pass} (rest : List Pass) {g : Graph} {reports : List PassReport},
    (∀ pass ∈ todo, ∀ b, Editing (fun _ => True) (pass.run b) fun _ _ => True) → g.Listed →
    (runPasses blocks (todo ++ rest) g reports).error = none → ∃ g₁ reports₁, Edited g g₁ ∧
      runPasses blocks (todo ++ rest) g reports = runPasses blocks rest g₁ reports₁
  | [], rest, g, reports, _, _, _ => ⟨g, reports, .refl, rfl⟩
  | pass :: todo, rest, g, reports, hediting, hl, hok => by
    rw [List.cons_append, runPasses] at hok ⊢
    have hpass := Editing.forM (hediting pass (.head _)) blocks g
    cases hrun : (blocks.forM pass.run).run g with
    | error e g₁ =>
      rw [hrun] at hok
      cases hok
    | ok u g₁ =>
      rw [hrun] at hok
      obtain ⟨hedited, -⟩ := hpass _ _ hl trivial hrun
      obtain ⟨g₂, reports₂, hedited₂, hrest⟩ := runPasses_editing rest (fun pass hp => hediting pass (.tail _ hp))
        (hedited.listed hl) hok
      exact ⟨g₂, reports₂, hedited.trans hedited₂, hrest⟩

/-- What becomes of a graph when it is lowered. -/
structure KeepsIdentity (g g' : Graph) : Prop where
  name : g'.name = g.name
  params : g'.params = g.params
  blocks : g'.blocks.size = g.blocks.size
  successors : ∀ b, g'.successors b = g.successors b
  /-- The instructions that were there stand in the same order, each once. -/
  order : ∀ b, (g'.listing b).filter (·.index < g.instrs.size) = g.listing b
  /-- The others have greater numbers. -/
  fresh : ∀ b, ∀ id ∈ g'.listing b, id ∉ g.listing b → ∀ b', ∀ old ∈ g.listing b', old.index < id.index
  kept : ∀ b, ∀ i ∈ g.code b, i.op.isPrim = true → i.op ≠ .prim .call → i ∈ g'.code b
  checked : ∀ b, ∀ i ∈ g.code b, i.op = .prim .call → ∃ b', ∃ stub ∈ g'.code b', IsCalleeCheck stub ∧
    { i with inputs := .value stub.id :: i.inputs.drop 1 } ∈ g'.code b
  lowered : ∀ b, ∀ i ∈ g.code b, i.op.isPrim = false → ∃ op inputs,
    { i with op := .prim op, inputs } ∈ g'.code b ∧ op.info.output = i.op.info.output
  prim : ∀ b, ∀ i ∈ g'.code b, i.op.isPrim = true

theorem editing_early : ∀ pass ∈ passes.take 6, ∀ b, Editing (fun _ => True) (pass.run b) fun _ _ => True := by
  intro pass hpass
  simp only [passes, List.take_succ_cons, List.take_zero, List.mem_cons, List.not_mem_nil, or_false] at hpass
  rcases hpass with rfl | rfl | rfl | rfl | rfl | rfl
  · exact editing_globals
  · exact editing_closures
  · exact editing_objects
  · exact editing_properties
  · exact editing_operators
  · exact editing_branches

theorem isPrim_of_firstUnlowered (hl : g.Listed) (hnone : g.firstUnlowered? = none) (hi : i ∈ g.code b) :
    i.op.isPrim = true := by
  obtain ⟨hlisted, hget⟩ := hl.mem_code_iff.mp hi
  obtain ⟨B, hB, hlisting, -⟩ := block_of_lt (lt_of_mem_code hi)
  have hblock : B ∈ g.blocks.toList := by
    have := Array.mem_of_getElem? (block_eq_ok.mp hB)
    simpa using this
  unfold firstUnlowered? at hnone
  have hid := List.findSome?_eq_none_iff.mp hnone i.id (List.mem_flatMap.mpr ⟨B, hblock, hlisting ▸ hlisted⟩)
  rw [hget] at hid
  simpa [Option.filter] using hid

/-- Lowering that succeeds is a sequence of edits after which every call is checked. -/
theorem lower_edited (hl : g.Listed) (hlowered : (lower g).error = none) : Edited g (lower g).graph ∧
    (∀ b, ∀ id ∈ g.listing b, Guarded (lower g).graph id) ∧ (lower g).graph.firstUnlowered? = none := by
  unfold lower at hlowered ⊢
  simp only at hlowered ⊢
  cases herror : (runPasses g.blockIds passes g []).error with
  | some e =>
    rw [herror] at hlowered
    cases hlowered.symm.trans herror
  | none =>
    rw [herror] at hlowered
    simp only at hlowered ⊢
    -- The pass over calls is the last one.
    obtain ⟨g₁, reports, hedited, hruns⟩ := runPasses_editing [⟨"calls", lowerCalls⟩] editing_early hl herror
    change runPasses g.blockIds passes g [] = _ at hruns
    rw [hruns] at herror hlowered ⊢
    rw [runPasses] at herror hlowered ⊢
    cases hrun : (g.blockIds.forM lowerCalls).run g₁ with
    | error e g₂ =>
      rw [hrun] at herror
      cases herror
    | ok u g₂ =>
      rw [hrun] at hlowered
      simp only [runPasses] at hlowered ⊢
      have hl₁ := hedited.listed hl
      obtain ⟨hedited₂, hguards⟩ := forM_lowerCalls g.blockIds hl₁ hrun
      cases hnone : g₂.firstUnlowered? with
      | some i =>
        rw [hnone] at hlowered
        cases hlowered
      | none =>
        refine ⟨hedited.trans hedited₂, fun b id hid => ?_, hnone⟩
        obtain ⟨i, hi, hblock⟩ := hl.found b id hid
        have hcode : i ∈ g.code b :=
          hl.mem_code_iff.mpr (hl.numbered _ _ hi ▸ ⟨hid, hi⟩)
        refine hguards b (mem_blockIds.mpr (lt_of_mem_code hcode)) id ?_
        rw [← (hedited.grown hl).order b] at hid
        exact (List.mem_filter.mp hid).1

/-- Lowering keeps the instructions of a graph apart, whatever instructions these are. -/
theorem lower_keepsIdentity (hl : g.Listed) (hlowered : (lower g).error = none) : KeepsIdentity g (lower g).graph := by
  obtain ⟨hedited, hguards, hnone⟩ := lower_edited hl hlowered
  generalize (lower g).graph = g' at *
  have hgrown := hedited.grown hl
  have hlt : ∀ {b id}, id ∈ g.listing b → id.index < g.instrs.size := fun {b id} hid => by
    obtain ⟨i, hi, -⟩ := hl.found b id hid
    exact (Array.getElem?_eq_some_iff.mp hi).1
  have hmem : ∀ {b id}, id ∈ g'.listing b → id.index < g.instrs.size → id ∈ g.listing b := fun {b id} hid hlt => by
    rw [← hgrown.order b]
    exact List.mem_filter.mpr ⟨hid, decide_eq_true hlt⟩
  -- What has become of an instruction stands in the block where it was.
  have hbecomes : ∀ {b i}, i ∈ g.code b → ∃ j ∈ g'.code b, Becomes i j := fun {b i} hi => by
    obtain ⟨hlisted, hget⟩ := hl.mem_code_iff.mp hi
    obtain ⟨j, hj, hb⟩ := hgrown.old hget
    refine ⟨j, hgrown.listed.mem_code_iff.mpr ?_, hb⟩
    rw [← hgrown.order b] at hlisted
    rw [hb.1]
    exact ⟨(List.mem_filter.mp hlisted).1, hj⟩
  have hprim : ∀ {b i}, i ∈ g'.code b → i.op.isPrim = true := isPrim_of_firstUnlowered hgrown.listed hnone
  exact {
    name := hgrown.name
    params := hgrown.params
    blocks := hgrown.blocks
    successors := hgrown.successors
    order := hgrown.order
    fresh := fun b id hid hnew b' old hold =>
      (hlt hold).trans_le (not_lt.mp fun hold' => hnew (hmem hid hold'))
    kept := fun b i hi hop hne => by
      obtain ⟨j, hj, hb⟩ := hbecomes hi
      exact hb.eq hop hne ▸ hj
    checked := fun b i hi hop => by
      obtain ⟨j, hj, hb⟩ := hbecomes hi
      obtain ⟨j', hj', hguard⟩ := hguards b i.id (hl.mem_code_iff.mp hi).1
      obtain rfl : j = j' :=
        Except.ok.inj ((hb.1 ▸ instr_of_mem hgrown.listed hj : g'.instr i.id = .ok j).symm.trans hj')
      obtain ⟨hcall, hdrop⟩ := hb.call hop
      obtain ⟨stub, hstub, hchecks, hhead⟩ := hguard hcall
      have hget := instr_eq_ok.mp hstub
      refine ⟨stub.block, stub, hgrown.listed.mem_code_iff.mpr ⟨hgrown.listed.placed _ _ hget, hget⟩, hchecks, ?_⟩
      have hinputs : j.inputs = .value stub.id :: i.inputs.drop 1 := by
        rw [← hdrop]
        rw [List.drop_one]
        exact (List.cons_head?_tail (by simpa using hhead)).symm
      have heq : { i with inputs := .value stub.id :: i.inputs.drop 1 } = j := by
        cases j
        exact Instr.mk.injEq .. ▸ ⟨hb.1.symm, hop.trans hcall.symm, hinputs.symm, hb.2.1.symm⟩
      exact heq ▸ hj
    lowered := fun b i hi hop => by
      obtain ⟨j, hj, hb⟩ := hbecomes hi
      have houtput := hb.output hop
      cases hj' : j.op with
      | script op =>
        have hprim := hprim hj
        rw [hj'] at hprim
        cases hprim
      | prim op =>
        rw [hj'] at houtput
        refine ⟨op, j.inputs, ?_, houtput⟩
        have heq : { i with op := .prim op, inputs := j.inputs } = j := by
          cases j
          exact Instr.mk.injEq .. ▸ ⟨hb.1.symm, hj'.symm, rfl, hb.2.1.symm⟩
        exact heq ▸ hj
    prim := fun b i hi => hprim hi }

/-- Pushes and script operations in an order that no source text gives rise to. -/
def jumbled : Graph where
  name := "jumbled"
  params := 2
  instrs := #[⟨⟨0⟩, .prim .arg, [raw 0], ⟨0⟩⟩, ⟨⟨1⟩, .script .closure, [.const (.function 1)], ⟨1⟩⟩,
    ⟨⟨2⟩, .prim .call, [.value ⟨0⟩, .value ⟨4⟩, raw 1], ⟨0⟩⟩,
    ⟨⟨3⟩, .script .branch, [.value ⟨2⟩], ⟨0⟩⟩,
    ⟨⟨4⟩, .script .loadProperty, [.value ⟨0⟩, .value ⟨0⟩], ⟨0⟩⟩,
    ⟨⟨5⟩, .prim .push, [.value ⟨4⟩], ⟨0⟩⟩, ⟨⟨6⟩, .prim .ret, [.value ⟨1⟩], ⟨1⟩⟩,
    ⟨⟨7⟩, .script .array, [raw 1], ⟨0⟩⟩,
    ⟨⟨8⟩, .script .storeProperty, [.value ⟨7⟩, .const (.smi 0), .value ⟨0⟩], ⟨0⟩⟩]
  blocks := #[⟨[⟨5⟩, ⟨0⟩, ⟨7⟩, ⟨4⟩, ⟨8⟩, ⟨2⟩, ⟨3⟩], [⟨1⟩, ⟨1⟩]⟩, ⟨[⟨1⟩, ⟨6⟩], []⟩]

theorem lower_keepsIdentity_jumbled : jumbled.Listed ∧ (lower jumbled).error = none ∧
    KeepsIdentity jumbled (lower jumbled).graph := by
  have hl : jumbled.Listed := by decide +kernel
  have hok : (lower jumbled).error = none := by decide +kernel
  exact ⟨hl, hok, lower_keepsIdentity hl hok⟩

end ScriptEngine.Lowering
