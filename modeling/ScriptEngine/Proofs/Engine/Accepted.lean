import ScriptEngine.Proofs.Engine.Outline
import ScriptEngine.Proofs.Graph.Order
import ScriptEngine.Proofs.Lowering.Lowered

/-!
Lowered graphs pass the checks of code generation. Blocks are generated after those that dominate
them, so all results that an instruction reads exist; every area is filled by the arguments of its
call; and a block passes values to all parameters of the next one.
-/

namespace ScriptEngine.Outline

open Graph Lowering

variable {g : Graph} {allowed : Const → Bool} {low high : Nat}

/-- Whether the constants of lowered graphs are allowed, with functions from a range. -/
structure Allows (allowed : Const → Bool) (low high : Nat) : Prop where
  value : ∀ c : Const, c.isValue = true → allowed c = true
  function : ∀ k, low < k → k < high → allowed (.function k) = true
  stub : ∀ name ∈ calledStubs, allowed (.stub name) = true
  cache : ∀ kind, allowed (.cache kind) = true

/-- Whether the results of some instructions, and of all in some blocks, are known to exist. -/
def Covers (g : Graph) (done : List BlockId) (before : List Instr) (o : Outline) : Prop :=
  ∀ d, (d ∈ before ∨ ∃ b ∈ done, d ∈ g.code b) → d.op.info.output = true → d.id ∈ o.defined

/-- Whether code is passed, from one outline to another. -/
def Passes (allowed : Const → Bool) (g : Graph) (code : List Instr) (o o' : Outline) : Prop :=
  ∀ rest, instructions allowed g (code.map (·.id) ++ rest) o = instructions allowed g rest o'

section

variable {b : BlockId} {done todo : List BlockId} {before code code' : List Instr} {i : Instr}
  {o o' o₁ : Outline} {op : PrimOp}

theorem Passes.nil : Passes allowed g [] o o := fun _ => rfl

theorem Passes.append (h : Passes allowed g code o o₁) (h' : Passes allowed g code' o₁ o') :
    Passes allowed g (code ++ code') o o' := by
  intro rest
  rw [List.map_append, List.append_assoc, h, h']

theorem Passes.single (hl : g.Listed) (hi : i ∈ g.code b) (hop : i.op = .prim op)
    (hstep : o.step allowed i op = some o') (hends : op.isTerminator = false) :
    Passes allowed g [i] o o' := by
  intro rest
  have hget := (hl.mem_code_iff.mp hi).2
  simp only [List.map_cons, List.map_nil, List.cons_append, List.nil_append, instructions, hget, hop,
    hstep, hends]
  rfl

theorem defined_effect (h : o.effect i op = some o') : o'.defined = o.defined := by
  cases op
  case toPhi =>
    obtain ⟨phi, -, rfl⟩ := Option.map_eq_some_iff.mp h
    rfl
  case openArea =>
    simp only [effect] at h
    split at h
    · obtain ⟨-, h⟩ := Option.ite_none_right_eq_some.mp h
      cases h
      rfl
    · cases h
  case push =>
    obtain ⟨_, _, -, rfl⟩ := areas_of_push h
    rfl
  case call =>
    obtain ⟨_, -, rfl⟩ := areas_of_call (.inl rfl) h
    rfl
  case callStub =>
    obtain ⟨_, -, rfl⟩ := areas_of_call (.inr rfl) h
    rfl
  case forwardCall | overflowed =>
    obtain ⟨-, h⟩ := Option.ite_none_right_eq_some.mp h
    cases h
    rfl
  all_goals
    cases h
    rfl

theorem Covers.step (hc : Covers g done before o) (hop : i.op = .prim op) (hphi : op ≠ .phi)
    (h : o.step allowed i op = some o') : Covers g done (before ++ [i]) o' := by
  obtain ⟨o₁, -, heffect, rfl⟩ := step_eq_some h
  intro d hd hout
  have hsame := defined_effect heffect
  have hmem : d = i ∨ d.id ∈ o.defined := by
    rw [List.mem_append, List.mem_singleton] at hd
    rcases hd with (hd | hd) | hd
    · exact .inr (hc d (.inl hd) hout)
    · exact .inl hd
    · exact .inr (hc d (.inr hd) hout)
  rcases hmem with rfl | hmem
  · have hfills : op.fills = true := by
      rw [hop] at hout
      simpa [PrimOp.fills, hphi, Op.info] using hout
    simp [hfills]
  · split
    · exact List.mem_cons_of_mem _ (hsame ▸ hmem)
    · exact hsame ▸ hmem

/-- It is the turn of a block of a graph; others are done, or still to do. -/
structure Turn (g : Graph) (done : List BlockId) (b : BlockId) (todo : List BlockId) : Prop where
  ssa : g.StrictSSA
  ordered : g.Ordered (done ++ b :: todo)
  all : ∀ b' : BlockId, b'.index < g.blocks.size → b' ∈ done ++ b :: todo

/-- What an instruction reads exists when its turn comes. -/
theorem Turn.reads (ht : Turn g done b todo) (hc : Covers g done before o)
    (hpre : before ++ [i] <+: g.code b) (id : InstrId) (hid : id ∈ i.reads) : id ∈ o.defined := by
  rcases ht.ssa.defined b before i hpre id hid with
    ⟨d, hd, rfl, hout⟩ | ⟨b', hne, hdom, d, hd, rfl, hout⟩
  · exact hc d (.inl hd) hout
  · have hb : b.index < g.blocks.size := ht.ordered.inside b (by simp)
    have hbefore := ht.ordered.dominator_before rfl (ht.all b' (lt_of_mem_code hd)) hne hdom
      (ht.ssa.reached b hb)
    exact hc d (.inr ⟨b', hbefore, hd⟩) hout

theorem Turn.single (ht : Turn g done b todo) (o₁ : Outline) (hc : Covers g done before o)
    (hpre : before ++ [i] <+: g.code b) (hop : i.op = .prim op)
    (hfits : fits allowed o.defined op.roles i.inputs = true) (heffect : o.effect i op = some o₁)
    (hphi : op ≠ .phi := by decide) (hends : op.isTerminator = false := by rfl) :
    ∃ o', Passes allowed g [i] o o' ∧ Covers g done (before ++ [i]) o' ∧ o'.areas = o₁.areas ∧
      o'.passed = o₁.passed ∧ o'.condition = o₁.condition := by
  have hstep : o.step allowed i op =
      some (if op.fills then { o₁ with defined := i.id :: o₁.defined } else o₁) := by
    rw [step, if_pos hfits, heffect]
    rfl
  have hi : i ∈ g.code b := hpre.subset (by simp)
  refine ⟨_, .single ht.ssa.listed hi hop hstep hends, hc.step hop hphi hstep, ?_⟩
  split <;> exact ⟨rfl, rfl, rfl⟩

/-! ### Instructions -/

theorem fits_literal (ha : Allows allowed low high) (h : i.IsLiteral) :
    fits allowed o.defined [.operand] i.inputs = true := by
  obtain ⟨-, c, hc, hins⟩ := h
  simp [hins, fits, admits, ha.value c hc]

theorem Turn.fits_value (ht : Turn g done b todo) (hc : Covers g done before o)
    (hpre : before ++ [i] <+: g.code b) {v : InstrId} (hop : i.op ≠ .prim .toPhi)
    (hins : i.inputs = [.value v]) : fits allowed o.defined [.operand] i.inputs = true := by
  have hv := ht.reads hc hpre v (by simp [Instr.reads, hop, hins, Input.value?])
  simp [hins, fits, admits, hv]

theorem Turn.simple (ht : Turn g done b todo) (ha : Allows allowed low high)
    (hr : g.Refers low high) (hc : Covers g done before o) (hpre : before ++ [i] <+: g.code b)
    (hs : Simple i.op i.inputs) (hprim : i.op.isPrim = true) :
    ∃ o', Passes allowed g [i] o o' ∧ Covers g done (before ++ [i]) o' ∧ o'.areas = o.areas := by
  have hi : i ∈ g.code b := hpre.subset (by simp)
  have hone : ∀ op, i.op = .prim op → fits allowed o.defined op.roles i.inputs = true →
      o.effect i op = some o → op ≠ .phi → op.isTerminator = false →
      ∃ o', Passes allowed g [i] o o' ∧ Covers g done (before ++ [i]) o' ∧ o'.areas = o.areas := by
    intro op hop hfits heffect hphi hends
    obtain ⟨o', hpass, hcovers, hareas, -⟩ := ht.single o hc hpre hop hfits heffect hphi hends
    exact ⟨o', hpass, hcovers, hareas⟩
  obtain ⟨x, op, ins, b'⟩ := i
  cases hs with
  | @literal c hvalue =>
    exact hone _ rfl (fits_literal ha ⟨rfl, c, hvalue, rfl⟩) rfl (by decide) rfl
  | code k =>
    obtain ⟨hlow, hhigh⟩ := hr b _ hi k (by simp)
    exact hone _ rfl (by simp [fits, admits, PrimOp.roles, ha.function k hlow hhigh]) rfl
      (by decide) rfl
  | global => exact hone _ rfl rfl rfl (by decide) rfl
  | receiver => exact hone _ rfl rfl rfl (by decide) rfl
  | arg k => exact hone _ rfl rfl rfl (by decide) rfl
  | trap => exact hone _ rfl rfl rfl (by decide) rfl
  | _ => cases hprim

/-- The arguments of a call fill the area that was opened for them. -/
theorem Turn.area (ht : Turn g done b todo) (ha : Allows allowed low high) {area : List Instr}
    (harea : ∀ j ∈ area, j.IsPush ∨ j.IsLiteral) {outer : List Nat} :
    ∀ before o, before ++ area <+: g.code b → Covers g done before o →
      o.areas = pushCount area :: outer →
      ∃ o', Passes allowed g area o o' ∧ Covers g done (before ++ area) o' ∧
        o'.areas = 0 :: outer := by
  induction area with
  | nil =>
    intro before o _ hc hareas
    exact ⟨o, .nil, by simpa using hc, hareas⟩
  | cons j rest ih =>
    intro before o hpre hc hareas
    have hsplit : before ++ j :: rest = (before ++ [j]) ++ rest := by simp
    rw [hsplit] at hpre ⊢
    have hj : before ++ [j] <+: g.code b := (List.prefix_append _ _).trans hpre
    obtain ⟨o₁, hpass, hcovers, hareas₁⟩ : ∃ o₁, Passes allowed g [j] o o₁ ∧
        Covers g done (before ++ [j]) o₁ ∧ o₁.areas = pushCount rest :: outer := by
      rcases harea j (by simp) with hpush | hlit
      · obtain ⟨v, hins⟩ := hpush.2
        have hcount : pushCount (j :: rest) = pushCount rest + 1 := by simp [pushCount, hpush.1]
        rw [hcount] at hareas
        obtain ⟨o₁, hpass, hcovers, hareas₁, -⟩ := ht.single
          { o with areas := pushCount rest :: outer } hc hj hpush.1
          (ht.fits_value hc hj (by simp [hpush.1]) hins) (by simp only [effect, hareas])
        exact ⟨o₁, hpass, hcovers, hareas₁⟩
      · have hcount : pushCount (j :: rest) = pushCount rest := by simp [pushCount, hlit.1]
        rw [hcount] at hareas
        obtain ⟨o₁, hpass, hcovers, hareas₁, -⟩ := ht.single o hc hj hlit.1
          (fits_literal ha hlit) rfl
        exact ⟨o₁, hpass, hcovers, hareas₁.trans hareas⟩
    obtain ⟨o₂, hpass₂, hcovers₂, hareas₂⟩ := ih (fun i hi => harea i (by simp [hi])) _ o₁ hpre
      hcovers hareas₁
    exact ⟨o₂, hpass.append hpass₂, hcovers₂, hareas₂⟩

theorem Turn.takes (ht : Turn g done b todo) (ha : Allows allowed low high) {n : Nat}
    {outer : List Nat} (hc : Covers g done before o) (hpre : before ++ [i] <+: g.code b)
    (htakes : Takes n i.op i.inputs) (hprim : i.op.isPrim = true) (hareas : o.areas = 0 :: outer) :
    ∃ o', Passes allowed g [i] o o' ∧ Covers g done (before ++ [i]) o' ∧ o'.areas = outer := by
  have hone : ∀ op, i.op = .prim op → op = .call ∨ op = .callStub →
      fits allowed o.defined op.roles i.inputs = true →
      ∃ o', Passes allowed g [i] o o' ∧ Covers g done (before ++ [i]) o' ∧ o'.areas = outer := by
    intro op hop hcall hfits
    have heffect : o.effect i op = some { o with areas := outer } := by
      rcases hcall with rfl | rfl <;> simp only [effect, hareas]
    obtain ⟨o', hpass, hcovers, hareas', -⟩ := ht.single _ hc hpre hop hfits heffect
      (by rcases hcall with rfl | rfl <;> decide) (by rcases hcall with rfl | rfl <;> rfl)
    exact ⟨o', hpass, hcovers, hareas'⟩
  have hreads := ht.reads hc hpre
  obtain ⟨x, op, ins, b'⟩ := i
  cases htakes with
  | call f r =>
    have hf := hreads f (by simp [Instr.reads, Input.value?])
    have hr := hreads r (by simp [Instr.reads, Input.value?])
    exact hone _ rfl (.inl rfl) (by simp [fits, admits, PrimOp.roles, hf, hr, raw, Builder.raw])
  | stub hname =>
    exact hone _ rfl (.inr rfl)
      (by simp [fits, admits, PrimOp.roles, ha.stub _ hname, raw, Builder.raw])
  | cache kind =>
    exact hone _ rfl (.inr rfl)
      (by simp [fits, admits, PrimOp.roles, ha.cache kind, raw, Builder.raw])
  | construct => cases hprim

theorem Turn.body (ht : Turn g done b todo) (ha : Allows allowed low high) (hr : g.Refers low high)
    (hbody : Balanced code) :
    ∀ before o, before ++ code <+: g.code b → Covers g done before o →
      ∃ o', Passes allowed g code o o' ∧ Covers g done (before ++ code) o' ∧
        o'.areas = o.areas := by
  induction hbody with
  | nil =>
    intro before o _ hc
    exact ⟨o, .nil, by simpa using hc, rfl⟩
  | @simple i rest hs hprim _ ih =>
    intro before o hpre hc
    have hsplit : before ++ i :: rest = (before ++ [i]) ++ rest := by simp
    rw [hsplit] at hpre ⊢
    obtain ⟨o₁, hpass, hcovers, hareas⟩ := ht.simple ha hr hc
      ((List.prefix_append _ _).trans hpre) hs hprim
    obtain ⟨o₂, hpass₂, hcovers₂, hareas₂⟩ := ih _ o₁ hpre hcovers
    exact ⟨o₂, hpass.append hpass₂, hcovers₂, hareas₂.trans hareas⟩
  | @area x i area rest hop hins harea htakes hprim _ ih =>
    intro before o hpre hc
    have hsplit : before ++ x :: (area ++ i :: rest) =
        (((before ++ [x]) ++ area) ++ [i]) ++ rest := by simp
    rw [hsplit] at hpre ⊢
    have hi : ((before ++ [x]) ++ area) ++ [i] <+: g.code b := (List.prefix_append _ _).trans hpre
    have harea' : (before ++ [x]) ++ area <+: g.code b := (List.prefix_append _ _).trans hi
    have hx : before ++ [x] <+: g.code b := (List.prefix_append _ _).trans harea'
    have heffect : o.effect x .openArea = some { o with areas := pushCount area :: o.areas } := by
      have hraw : x.rawInput 0 = .ok (pushCount area : Int) := by
        simp [Instr.rawInput, hins, raw, Builder.raw]
      simp only [effect, hraw]
      rw [if_pos (by omega), Int.toNat_natCast]
    obtain ⟨o₁, hpass₁, hcovers₁, hareas₁, -⟩ := ht.single _ hc hx hop
      (by simp [hins, fits, admits, PrimOp.roles, raw, Builder.raw]) heffect
    obtain ⟨o₂, hpass₂, hcovers₂, hareas₂⟩ := ht.area ha harea _ o₁ harea' hcovers₁ hareas₁
    obtain ⟨o₃, hpass₃, hcovers₃, hareas₃⟩ := ht.takes ha hcovers₂ hi htakes hprim hareas₂
    obtain ⟨o₄, hpass₄, hcovers₄, hareas₄⟩ := ih _ o₃ hpre hcovers₃
    refine ⟨o₄, ?_, hcovers₄, hareas₄.trans hareas₃⟩
    have hall := ((hpass₁.append hpass₂).append hpass₃).append hpass₄
    simpa using hall

/-- A block passes a value to each parameter that it names. -/
theorem Turn.passes (ht : Turn g done b todo) (ha : Allows allowed low high)
    (hcode : ∀ i ∈ code, i.IsPass ∨ i.IsLiteral) :
    ∀ before o, before ++ code <+: g.code b → Covers g done before o →
      ∃ o', Passes allowed g code o o' ∧ Covers g done (before ++ code) o' ∧
        ∀ phi, phi ∈ code.filterMap Instr.passTarget? ∨ phi ∈ o.passed → phi ∈ o'.passed := by
  induction code with
  | nil =>
    intro before o _ hc
    exact ⟨o, .nil, by simpa using hc, by simp⟩
  | cons j rest ih =>
    intro before o hpre hc
    have hsplit : before ++ j :: rest = (before ++ [j]) ++ rest := by simp
    rw [hsplit] at hpre ⊢
    have hj : before ++ [j] <+: g.code b := (List.prefix_append _ _).trans hpre
    obtain ⟨o₁, hpass, hcovers, hpassed⟩ : ∃ o₁, Passes allowed g [j] o o₁ ∧
        Covers g done (before ++ [j]) o₁ ∧
        ∀ phi, j.passTarget? = some phi ∨ phi ∈ o.passed → phi ∈ o₁.passed := by
      rcases hcode j (by simp) with hpass | hlit
      · obtain ⟨hop, p, v, hins⟩ := hpass
        have hv := ht.reads hc hj v (by simp [Instr.reads, hop, hins, Input.value?])
        have htarget : j.passTarget? = some p := by
          simp [Instr.passTarget?, hop, hins, Input.value?]
        obtain ⟨o₁, hpass, hcovers, -, hpassed, -⟩ := ht.single
          { o with passed := p :: o.passed } hc hj hop
          (by simp [hins, fits, admits, PrimOp.roles, hv]) (by simp [effect, htarget])
        refine ⟨o₁, hpass, hcovers, fun phi hphi => ?_⟩
        rw [hpassed, List.mem_cons]
        exact hphi.imp_left fun h => Option.some.inj (h.symm.trans htarget)
      · obtain ⟨o₁, hpass, hcovers, -, hpassed, -⟩ := ht.single o hc hj hlit.1
          (fits_literal ha hlit) rfl
        refine ⟨o₁, hpass, hcovers, fun phi hphi => ?_⟩
        rw [hpassed]
        exact hphi.resolve_left (by simp [Instr.passTarget?, hlit.1])
    obtain ⟨o₂, hpass₂, hcovers₂, hpassed₂⟩ := ih (fun i hi => hcode i (by simp [hi])) _ o₁ hpre
      hcovers
    refine ⟨o₂, hpass.append hpass₂, hcovers₂, fun phi hphi => hpassed₂ phi ?_⟩
    rw [List.mem_filterMap] at hphi ⊢
    rcases hphi with ⟨i, hi, htarget⟩ | hphi
    · rcases List.mem_cons.mp hi with rfl | hi
      · exact .inr (hpassed phi (.inl htarget))
      · exact .inl ⟨i, hi, htarget⟩
    · exact .inr (hpassed phi (.inr hphi))

end

/-! ### Blocks -/

section

variable {b : BlockId} {done todo : List BlockId} {before tail : List Instr} {o : Outline}

theorem edge_of_parameters (hl : g.Listed) (hb : b.index < g.blocks.size)
    (h : ∀ phi ∈ g.parameters b, phi ∈ o.passed) : o.edge g b = true := by
  obtain ⟨B, hB, -⟩ := block_of_lt hb
  rw [edge, hl.phis_eq hB]
  simpa using h

/-- A block can be left in the way that it ends. -/
theorem Turn.ends (ht : Turn g done b todo) (ha : Allows allowed low high)
    (hprim : ∀ i ∈ tail, i.op.isPrim = true) (hends : g.Ends (g.successors b) tail)
    (hcode : before ++ tail = g.code b) (hc : Covers g done before o) :
    ∃ o' ended, instructions allowed g (tail.map (·.id)) o = some (o', ended) ∧
      Covers g done (g.code b) o' ∧ (ended = true ∨ o'.fallThrough g (g.successors b) = true) := by
  have hl := ht.ssa.listed
  have hpre : before ++ tail <+: g.code b := hcode ▸ List.prefix_rfl
  have hinside : ∀ t ∈ g.successors b, t.index < g.blocks.size := fun t hmem =>
    (ht.ssa.inside b t hmem).2
  generalize g.successors b = next at hends hinside
  cases hends with
  | @ret i v hop hins =>
    have hi : i ∈ g.code b := hpre.subset (by simp)
    have hget := (hl.mem_code_iff.mp hi).2
    have hfits : fits allowed o.defined [.operand] i.inputs = true :=
      ht.fits_value hc hpre (by simp [hop]) hins
    have hstep : o.step allowed i .ret = some o := by
      rw [step, PrimOp.roles, if_pos hfits]
      rfl
    refine ⟨o, true, ?_, ?_, .inl rfl⟩
    · simp [instructions, hget, hop, hstep, PrimOp.isTerminator]
    · rw [← hcode]
      exact hc.step hop (by decide) hstep
  | @branch i v yes no hop hins hyes hno =>
    have hop : i.op = .prim .isTrue := by
      rcases hop with hop | hop
      · have := hprim i (by simp)
        rw [hop] at this
        cases this
      · exact hop
    obtain ⟨o', hpass, hcovers, -, -, hcond⟩ := ht.single
      { o with condition := true } hc hpre hop
      (ht.fits_value hc hpre (by simp [hop]) hins) rfl
    refine ⟨o', false, ?_, hcode ▸ hcovers, .inr ?_⟩
    · have hrun := hpass []
      rwa [List.append_nil] at hrun
    · have hy := edge_of_parameters (o := o') hl (hinside yes (by simp)) (by simp [hyes])
      have hn := edge_of_parameters (o := o') hl (hinside no (by simp)) (by simp [hno])
      simp [fallThrough, hcond, hy, hn]
  | @jump _ target hall hto =>
    obtain ⟨o', hpass, hcovers, hpassed⟩ := ht.passes ha hall before o hpre hc
    refine ⟨o', false, ?_, hcode ▸ hcovers, .inr ?_⟩
    · have hrun := hpass []
      rwa [List.append_nil] at hrun
    · refine edge_of_parameters hl (hinside target (by simp)) fun phi hphi => ?_
      exact hpassed phi (.inl (hto ▸ hphi))

/-- The parameters of a block exist from its start; the entry has none. -/
theorem Turn.heads (ht : Turn g done b todo) (allowed : Const → Bool) {heads rest : List Instr}
    (hcode : g.code b = heads ++ rest) (hheads : ∀ i ∈ heads, i.IsPhi)
    (hentry : g.parameters ⟨0⟩ = []) (hc : Covers g done [] o) :
    Passes allowed g heads (o.enter b (g.parameters b)) (o.enter b (g.parameters b)) ∧
      Covers g done heads (o.enter b (g.parameters b)) := by
  have hparams : ∀ i ∈ heads, i.id ∈ g.parameters b := fun i hi => by
    refine List.mem_map.mpr ⟨i, List.mem_filter.mpr ⟨by simp [hcode, hi], ?_⟩, rfl⟩
    simp [(hheads i hi).1]
  have hindex : ∀ i ∈ heads, b.index ≠ 0 := by
    rintro i hi h0
    obtain rfl : b = ⟨0⟩ := by
      obtain ⟨k⟩ := b
      cases h0
      rfl
    have hnone := hparams i hi
    rw [hentry] at hnone
    cases hnone
  constructor
  · suffices h : ∀ part : List Instr, (∀ i ∈ part, i ∈ heads) →
        Passes allowed g part (o.enter b (g.parameters b)) (o.enter b (g.parameters b)) from
      h heads fun _ hi => hi
    intro part hpart
    induction part with
    | nil => exact .nil
    | cons i part ih =>
      have hi := hpart i (by simp)
      have hone : Passes allowed g [i] (o.enter b (g.parameters b))
          (o.enter b (g.parameters b)) :=
        .single ht.ssa.listed (b := b) (by simp [hcode, hi]) (hheads i hi).1 rfl rfl
      exact hone.append (ih fun j hj => hpart j (by simp [hj]))
  · intro d hd hout
    rcases hd with hd | hd
    · simp [enter, hindex d hd, hparams d hd]
    · have hdefined := hc d (.inr hd) hout
      simp only [enter]
      split
      · exact hdefined
      · exact List.mem_append_right _ hdefined

theorem Turn.block (ht : Turn g done b todo) (hg : Lowered g) (ha : Allows allowed low high)
    (hr : g.Refers low high) (hentry : g.parameters ⟨0⟩ = [])
    (hc : Covers g done [] o) :
    ∃ o', o.block allowed g b = some o' ∧ Covers g (done ++ [b]) [] o' := by
  have hb : b.index < g.blocks.size := ht.ordered.inside b (by simp)
  obtain ⟨heads, body, tail, hcode, hheads, hbody, hends⟩ := hg.forms b hb
  obtain ⟨hpass, hcovers⟩ := ht.heads allowed hcode hheads hentry hc
  have hpre : heads ++ body <+: g.code b := ⟨tail, by rw [hcode, List.append_assoc]⟩
  obtain ⟨o₁, hpass₁, hcovers₁, -⟩ := ht.body ha hr hbody heads _ hpre hcovers
  obtain ⟨o', ended, hrun, hcovers', hexit⟩ := ht.ends ha
    (fun i hi => hg.prim b i (by simp [hcode, hi])) hends (by rw [hcode, List.append_assoc]) hcovers₁
  refine ⟨o', ?_, ?_⟩
  · obtain ⟨B, hB, hlist, hsucc⟩ := block_of_lt hb
    have hinstrs : instructions allowed g B.instrs (o.enter b (g.parameters b)) =
        some (o', ended) := by
      have hids : B.instrs = (heads ++ body).map (·.id) ++ tail.map (·.id) := by
        rw [hlist, ← hg.ssa.listed.code_ids b, hcode]
        simp
      rw [hids, (hpass.append hpass₁) _]
      exact hrun
    rw [← hsucc] at hexit
    unfold Outline.block
    rw [hg.ssa.listed.phis_eq hB, hB]
    simp only [hinstrs]
    rw [if_pos (by simpa using hexit)]
  · rintro d (hd | ⟨b', hb', hd⟩) hout
    · cases hd
    · rcases List.mem_append.mp hb' with hb' | hb'
      · exact hcovers' d (.inr ⟨b', hb', hd⟩) hout
      · obtain rfl := List.mem_singleton.mp hb'
        exact hcovers' d (.inl hd) hout

/-- Code can be generated for every lowered graph. -/
theorem accepts_of_lowered (hg : Lowered g) (ha : Allows allowed low high)
    (hr : g.Refers low high) (hentry : g.parameters ⟨0⟩ = []) :
    accepts allowed g = true := by
  obtain ⟨order, horder, hordered, hall⟩ := reversePostorder_ok hg.ssa
  have hblocks : ∀ (todo done : List BlockId) (o : Outline), order = done ++ todo →
      Covers g done [] o → (blocks allowed g todo o).isSome = true := by
    intro todo
    induction todo with
    | nil =>
      intro done o _ _
      rfl
    | cons b todo ih =>
      intro done o hsplit hc
      have ht : Turn g done b todo :=
        ⟨hg.ssa, hsplit ▸ hordered, fun b' hb' => hsplit ▸ hall b' hb'⟩
      obtain ⟨o', hblock, hc'⟩ := ht.block hg ha hr hentry hc
      rw [blocks, hblock]
      exact ih (done ++ [b]) o' (by rw [hsplit]; simp) hc'
  rw [accepts, horder]
  exact hblocks order [] {} rfl fun d hd => by simp at hd

end

end ScriptEngine.Outline
