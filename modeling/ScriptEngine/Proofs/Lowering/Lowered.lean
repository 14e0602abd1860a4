import ScriptEngine.Proofs.Graph.Constructed
import ScriptEngine.Proofs.Lowering.Framing

/-!
Lowered graphs. Lowering succeeds on every graph of a script; what it leaves is in strict single
assignment, has primitive operations only, and opens an area for the arguments of each call.
-/

namespace ScriptEngine.Lowering

open Graph State

/-! ### The last pass keeps single assignment -/

section

variable {n : Nat} {b : BlockId} {xs ys : List Instr}

theorem Pieces.self (xs : List Instr) : Pieces Faithful xs xs := by
  induction xs with
  | nil => exact .nil
  | cons i rest ih => exact .cons (.self i) ih

/-- An area may be opened before anything but a parameter. -/
theorem Pieces.open_cons {i : Instr} (hop : i.op ≠ .prim .phi) (o : InstrId) (argc : Nat)
    (rest : List Instr) :
    Pieces Faithful (i :: rest) (openInstr b o argc :: i :: rest) := by
  suffices h : Faithful [i] [openInstr b o argc, i] from .cons h (Pieces.self rest)
  have hreads : Checks i.reads [openInstr b o argc, i] :=
    ⟨by simp [Instr.reads, Input.value?, raw, Builder.raw],
      by simp [Op.info, PrimOp.info, OpInfo.effect], trivial⟩
  refine ⟨by simp, by simp [hop], by simp, fun d hd id h => ⟨d, List.mem_cons_of_mem _ hd, h⟩, ?_⟩
  intro before j hj id hid
  exact (hreads.reads hj hid).imp_right fun h => ⟨[], i, by simp, h, by simp⟩

theorem mem_reads_call {x f r id : InstrId} {argc : Nat} :
    id ∈ (callInstr b x f r argc).reads ↔ id = f ∨ id = r := by
  simp [Instr.reads, Input.value?, raw, Builder.raw]

/-- The callee of a call may be checked before its arguments, which define nothing. -/
theorem Faithful.call {area : List Instr} (harea : ∀ j ∈ area, j.IsPush) (x f r o₁ p c o₂ : InstrId)
    (argc : Nat) :
    Faithful (area ++ [callInstr b x f r argc])
      (openInstr b o₁ 1 :: pushInstr b p f :: stubInstr b c "checkFunction" 1 ::
        openInstr b o₂ argc :: (area ++ [callInstr b x c r argc])) := by
  have hno : ∀ j ∈ area, ∀ id, ¬ j.Defines id := fun j hj id hdef => by
    have := hdef.2
    rw [(harea j hj).1] at this
    cases this
  have hop : ∀ op, op ≠ .push → ∀ j ∈ area, j.op ≠ .prim op := fun op hne j hj h => by
    rw [(harea j hj).1] at h
    exact hne (by simpa using h.symm)
  have hfilter : area.filter (·.op == .prim .toPhi) = [] :=
    List.filter_eq_nil_iff.mpr fun j hj => by simpa using hop .toPhi (by simp) j hj
  refine ⟨by simp, ?_, ?_, ?_, ?_⟩
  · intro j hj hphi
    simp only [List.mem_append, List.mem_cons, List.not_mem_nil, or_false] at hj
    rcases hj with (hj | rfl) | rfl | rfl | rfl | rfl | hj | rfl
    · exact absurd hphi (hop .phi (by simp) j hj)
    · cases hphi
    · cases hphi
    · cases hphi
    · cases hphi
    · cases hphi
    · exact absurd hphi (hop .phi (by simp) j hj)
    · cases hphi
  · rw [List.filter_append, hfilter]
    simp only [List.filter_cons, List.filter_append, hfilter]
    rfl
  · intro d hd id hdef
    rcases List.mem_append.mp hd with hd | hd
    · exact absurd hdef (hno d hd id)
    · obtain rfl := List.mem_singleton.mp hd
      exact ⟨callInstr b x c r argc, by simp, hdef.1, rfl⟩
  · intro before j hj id hid
    let known := (area ++ [callInstr b x f r argc]).flatMap Instr.reads
    have hf : f ∈ known :=
      List.mem_flatMap.mpr ⟨callInstr b x f r argc, by simp, mem_reads_call.mpr (.inl rfl)⟩
    have hr : r ∈ known :=
      List.mem_flatMap.mpr ⟨callInstr b x f r argc, by simp, mem_reads_call.mpr (.inr rfl)⟩
    have hrest : ∀ rest, (∀ j ∈ rest, j ∈ area) →
        Checks (c :: known) (rest ++ [callInstr b x c r argc]) := by
      intro rest hsub
      induction rest with
      | nil =>
        refine ⟨fun id hid => ?_, trivial⟩
        rcases mem_reads_call.mp hid with rfl | rfl
        · simp
        · simp [hr]
      | cons j rest ih =>
        have hj := hsub j (by simp)
        refine ⟨fun id hid => ?_, ?_⟩
        · exact List.mem_cons_of_mem _ (List.mem_flatMap.mpr ⟨j, by simp [hj], hid⟩)
        · rw [(harea j hj).1]
          exact ih fun i hi => hsub i (by simp [hi])
    have hall : Checks known (openInstr b o₁ 1 :: pushInstr b p f ::
        stubInstr b c "checkFunction" 1 :: openInstr b o₂ argc ::
        (area ++ [callInstr b x c r argc])) := by
      refine ⟨by simp [Instr.reads, Input.value?, raw, Builder.raw], fun id hid => ?_,
        by simp [Instr.reads, Input.value?, raw, Builder.raw],
        by simp [Instr.reads, Input.value?, raw, Builder.raw], hrest area fun _ h => h⟩
      obtain rfl : id = f := by simpa [Instr.reads, Input.value?] using hid
      exact hf
    refine (hall.reads hj hid).imp_right fun hknown => ?_
    -- Whatever the old group reads is read before it defines anything.
    obtain ⟨i, hi, hid⟩ := List.mem_flatMap.mp hknown
    rcases List.mem_append.mp hi with hi | hi
    · obtain ⟨before', after, rfl⟩ := List.append_of_mem hi
      exact ⟨before', i, ⟨after ++ [callInstr b x f r argc], by simp⟩, hid,
        fun d hd => hno d (by simp [hd]) id⟩
    · obtain rfl := List.mem_singleton.mp hi
      exact ⟨area, _, List.prefix_rfl, hid, fun d hd => hno d hd id⟩

theorem Framed.pieces (h : Framed n b xs ys) : Pieces Faithful xs ys := by
  induction h with
  | nil => exact .nil
  | @simple i _ _ _ _ _ ih => exact .cons (.self i) ih
  | @stub area rest rest' i o harea hop _ _ _ ih =>
    have hgroup : Pieces Faithful (area ++ [i])
        (openInstr b o (pushCount area) :: (area ++ [i])) := by
      cases area with
      | nil => exact .open_cons (by simp [hop]) _ _ _
      | cons j area =>
        refine .open_cons ?_ _ _ _
        rcases harea j (by simp) with hj | hj <;> simp [hj.1]
    simpa using hgroup.append ih
  | @call area rest rest' x f r o₁ p c o₂ harea _ _ _ _ _ ih =>
    simpa using (Pieces.single (Faithful.call harea x f r o₁ p c o₂ (pushCount area))).append ih

theorem Changes.strictSSA_frames {g g' : Graph} (h : Changes (Frames g) g g')
    (hssa : g.StrictSSA) : g'.StrictSSA := by
  refine StrictSSA.of_faithful hssa h.listed h.blocks h.successors fun b => ?_
  by_cases hb : b.index < g.blocks.size
  · obtain ⟨heads, body, body', tail, hf, hframed, hcode⟩ := h.code b hb
    rw [hcode, hf.code]
    exact (Pieces.self heads).append (hframed.pieces.append (Pieces.self tail))
  · rw [code_eq_nil hb, code_eq_nil (by rwa [h.blocks])]
    exact .nil

end

/-! ### What lowering leaves -/

/-- Code in which every call has its area: opened before its arguments, with room for just these. -/
inductive Balanced : List Instr → Prop where
  | nil : Balanced []
  | simple {i : Instr} {rest : List Instr} : Simple i.op i.inputs → i.op.isPrim = true →
    Balanced rest → Balanced (i :: rest)
  | area {o i : Instr} {area rest : List Instr} : o.op = .prim .openArea →
    o.inputs = [raw (pushCount area)] → (∀ j ∈ area, j.IsPush ∨ j.IsLiteral) →
    Takes (pushCount area) i.op i.inputs → i.op.isPrim = true → Balanced rest →
    Balanced (o :: (area ++ i :: rest))

theorem Framed.balanced {n : Nat} {b : BlockId} {xs ys : List Instr} (h : Framed n b xs ys) :
    Balanced ys := by
  induction h with
  | nil => exact .nil
  | simple hs hp _ ih => exact .simple hs hp ih
  | stub harea hop ht _ _ ih => exact .area rfl rfl harea ht (by rw [hop]; rfl) ih
  | @call area rest rest' x f r o₁ p c o₂ harea _ _ _ _ _ ih =>
    have hcall : Balanced (openInstr b o₂ (pushCount area) ::
        (area ++ callInstr b x c r (pushCount area) :: rest')) :=
      .area rfl rfl (fun j hj => .inl (harea j hj)) (.call c r) rfl ih
    have hcheck : "checkFunction" ∈ calledStubs := by decide
    exact @Balanced.area (openInstr b o₁ 1) (stubInstr b c "checkFunction" 1) [pushInstr b p f] _
      rfl rfl (by simp [Instr.IsPush]) (.stub hcheck) rfl hcall

theorem Balanced.isPrim {code : List Instr} (h : Balanced code) :
    ∀ i ∈ code, i.op.isPrim = true := by
  induction h with
  | nil => simp
  | simple _ hp _ ih => simpa [hp] using ih
  | @area o i area rest ho _ harea _ hi _ ih =>
    have hargs : ∀ j ∈ area, j.op.isPrim = true := fun j hj => by
      rcases harea j hj with h | h <;> rw [h.1] <;> rfl
    intro j hj
    simp only [List.mem_cons, List.mem_append] at hj
    rcases hj with rfl | hj | rfl | hj
    · rw [ho]
      rfl
    · exact hargs j hj
    · exact hi
    · exact ih j hj

/-- A graph that all passes are done with. -/
structure Lowered (g : Graph) : Prop where
  ssa : g.StrictSSA
  forms : ∀ b : BlockId, b.index < g.blocks.size → ∃ heads body tail,
    g.code b = heads ++ (body ++ tail) ∧ (∀ i ∈ heads, i.IsPhi) ∧ Balanced body ∧
      g.Ends (g.successors b) tail
  prim : ∀ b, ∀ i ∈ g.code b, i.op.isPrim = true

theorem Framed.filter_phi {n : Nat} {b : BlockId} {xs ys : List Instr} (h : Framed n b xs ys)
    (hx : BlockBody xs) : ys.filter (·.op == .prim .phi) = [] := by
  refine List.filter_eq_nil_iff.mpr fun i hi hop => ?_
  exact hx.op_ne_phi i (h.pieces.mem_phi hi (by simpa using hop)) (by simpa using hop)

theorem Changes.parameters_frames {g g' : Graph} (h : Changes (Frames g) g g') (b : BlockId) :
    g'.parameters b = g.parameters b := by
  by_cases hb : b.index < g.blocks.size
  · obtain ⟨heads, body, body', tail, hf, hframed, hcode⟩ := h.code b hb
    have hbody : body.filter (·.op == .prim .phi) = [] :=
      List.filter_eq_nil_iff.mpr fun i hi hop => hf.body.op_ne_phi i hi (by simpa using hop)
    rw [Graph.parameters, Graph.parameters, hcode, hf.code]
    simp only [List.filter_append, hframed.filter_phi hf.body, hbody]
  · rw [Graph.parameters, Graph.parameters, code_eq_nil hb, code_eq_nil (by rwa [h.blocks])]

/-- Areas and checks refer to no functions. -/
theorem Framed.functions {n index : Nat} {b : BlockId} {xs ys : List Instr}
    (h : Framed n b xs ys) : ∀ j ∈ ys, Input.const (.function index) ∈ j.inputs →
      ∃ i ∈ xs, Input.const (.function index) ∈ i.inputs := by
  induction h with
  | nil => simp
  | simple _ _ _ ih =>
    intro j hj hin
    rcases List.mem_cons.mp hj with rfl | hj
    · exact ⟨j, by simp, hin⟩
    · obtain ⟨i, hi, hin⟩ := ih j hj hin
      exact ⟨i, by simp [hi], hin⟩
  | @stub area rest rest' i o _ _ _ _ _ ih =>
    intro j hj hin
    simp only [List.mem_cons, List.mem_append] at hj
    rcases hj with rfl | hj | rfl | hj
    · simp [raw, Builder.raw] at hin
    · exact ⟨j, by simp [hj], hin⟩
    · exact ⟨j, by simp, hin⟩
    · obtain ⟨i, hi, hin⟩ := ih j hj hin
      exact ⟨i, by simp [hi], hin⟩
  | @call area rest rest' x f r o₁ p c o₂ _ _ _ _ _ _ ih =>
    intro j hj hin
    simp only [List.mem_cons, List.mem_append] at hj
    rcases hj with rfl | rfl | rfl | rfl | hj | rfl | hj
    · simp [raw, Builder.raw] at hin
    · simp at hin
    · simp [raw, Builder.raw] at hin
    · simp [raw, Builder.raw] at hin
    · exact ⟨j, by simp [hj], hin⟩
    · simp [raw, Builder.raw] at hin
    · obtain ⟨i, hi, hin⟩ := ih j hj hin
      exact ⟨i, by simp [hi], hin⟩

theorem Changes.refers_frames {g g' : Graph} (h : Changes (Frames g) g g') {low high : Nat}
    (hr : g.Refers low high) : g'.Refers low high := by
  intro b j hj index hin
  obtain ⟨heads, body, body', tail, hf, hframed, hcode⟩ :=
    h.code b ((lt_of_mem_code hj).trans_eq h.blocks)
  rw [hcode, List.mem_append, List.mem_append] at hj
  rcases hj with hj | hj | hj
  · exact hr b j (by simp [hf.code, hj]) index hin
  · obtain ⟨i, hi, hin⟩ := hframed.functions j hj hin
    exact hr b i (by simp [hf.code, hi]) index hin
  · exact hr b j (by simp [hf.code, hj]) index hin

theorem Changes.lowered {g g' : Graph} (h : Changes (Frames g) g g') (hs : Staged 6 g) :
    Lowered g' := by
  have hparams := h.parameters_frames
  refine ⟨h.strictSSA_frames hs.ssa, fun b hb => ?_, fun b i hi => ?_⟩
  · obtain ⟨heads, body, body', tail, hf, hframed, hcode⟩ := h.code b (hb.trans_eq h.blocks)
    refine ⟨heads, body', tail, hcode, hf.heads, hframed.balanced, ?_⟩
    rw [h.successors]
    have hends := hf.ends
    generalize g.successors b = next at hends
    cases hends with
    | ret hop hins => exact .ret hop hins
    | branch hop hins hyes hno =>
      exact .branch hop hins (by rw [hparams, hyes]) (by rw [hparams, hno])
    | jump hall hto => exact .jump hall (by rw [hparams, hto])
  · obtain ⟨heads, body, body', tail, hf, hframed, hcode⟩ :=
      h.code b ((lt_of_mem_code hi).trans_eq h.blocks)
    rw [hcode, List.mem_append, List.mem_append] at hi
    rcases hi with hi | hi | hi
    · rw [(hf.heads i hi).1]
      rfl
    · exact hframed.balanced.isPrim i hi
    · exact hs.isPrim (b := b) (by simp [hf.code, hi])

/-! ### The whole of lowering -/

/-- Graphs after the first passes on a graph. -/
inductive Passed (g : Graph) : Nat → Graph → Prop where
  | start : Passed g 0 g
  | next {k : Nat} {g₁ g₂ : Graph} : Passed g k g₁ → Rewrites (Step g₁ (k + 1)) g₁ g₂ →
    Passed g (k + 1) g₂

section

variable {g g₁ : Graph} {k : Nat}

theorem Passed.staged (h : Passed g k g₁) (hg : g.Sketch []) : Staged k g₁ := by
  induction h with
  | start => exact .of_sketch hg
  | next _ hr ih => exact ih.next hr

theorem Passed.blockIds (h : Passed g k g₁) : g₁.blockIds = g.blockIds := by
  induction h with
  | start => rfl
  | next _ hr ih =>
    rw [← ih]
    unfold Graph.blockIds
    rw [hr.blocks]

theorem Passed.refers (h : Passed g k g₁) {low high : Nat} (hg : g.Refers low high) :
    g₁.Refers low high := by
  induction h with
  | start => exact hg
  | next _ hr ih => exact hr.refers ih

theorem Passed.parameters (h : Passed g k g₁) (b : BlockId) :
    g₁.parameters b = g.parameters b := by
  induction h with
  | start => rfl
  | next _ hr ih => rw [hr.parameters, ih]

theorem Passed.successors (h : Passed g k g₁) (b : BlockId) : g₁.successors b = g.successors b := by
  induction h with
  | start => rfl
  | next _ hr ih => rw [hr.successors, ih]

/-- An array literal, or a small integer, is there from the start if it is there when the pass over objects begins. -/
theorem Passed.mem_start (h : Passed g k g₁) (hk : k ≤ 2) {b : BlockId} {i : Instr} (hi : i ∈ g₁.code b)
    (hop : i.op = .script .array ∨ ∃ n, i.op = .prim .literal ∧ i.inputs = [.const (.smi n)]) : i ∈ g.code b := by
  induction h with
  | start => exact hi
  | next _ hr ih =>
    obtain ⟨j, hj, piece, ⟨hstep, -⟩, hmem⟩ := (hr.expansion b).mem hi
    cases hstep with
    | keep =>
      cases List.mem_singleton.mp hmem
      exact ih (by omega) hj
    | loadGlobal | storeGlobal | deleteGlobal | closure =>
      simp only [List.mem_cons, List.not_mem_nil, or_false] at hmem
      rcases hmem with rfl | rfl | rfl <;> simp at hop
    | _ => omega

theorem Passed.elements (h : Passed g k g₁) (hk : k ≤ 2) {b : BlockId} {array key : InstrId} {index : Int}
    (helement : ElementStore g₁ b array key index) : ElementStore g b array key index := by
  obtain ⟨⟨length, hlt, harray⟩, hnonneg, b', hkey⟩ := helement
  exact ⟨⟨length, hlt, h.mem_start hk harray (.inl rfl)⟩, hnonneg, b', h.mem_start hk hkey (.inr ⟨index, rfl, rfl⟩)⟩

theorem Passed.le (h : Passed g k g₁) : g.instrs.size ≤ g₁.instrs.size := by
  induction h with
  | start => exact le_rfl
  | next _ hr ih => exact ih.trans hr.instrs

theorem runPasses_of_ok {blocks : List BlockId} {pass : Pass} {rest : List Pass} {g g' : Graph}
    {u : PUnit} (h : (blocks.forM pass.run) g = .ok u g') (reports : List PassReport) :
    runPasses blocks (pass :: rest) g reports =
      runPasses blocks rest g' (reports ++ [⟨pass.name, g'.name, g'.instrs.size⟩]) := by
  have hrun : (blocks.forM pass.run).run g = .ok u g' := h
  rw [runPasses, hrun]

/-- The passes before the last all succeed. -/
theorem runPasses_early (hg : g.Sketch []) : ∀ (todo : List Pass) (k : Nat) (g₁ : Graph)
    (reports : List PassReport), Passed g k g₁ →
    (∀ j pass, todo[j]? = some pass → early[k + j]? = some pass.run) →
    ∃ g₂ reports', Passed g (k + todo.length) g₂ ∧ ∀ rest,
      runPasses g.blockIds (todo ++ rest) g₁ reports = runPasses g.blockIds rest g₂ reports'
  | [], k, g₁, reports, hp, _ => ⟨g₁, reports, hp, fun _ => rfl⟩
  | pass :: todo, k, g₁, reports, hp, hearly => by
    obtain ⟨u, g₂, hok, hr⟩ := (hp.staged hg).runs (hearly 0 pass rfl)
    rw [hp.blockIds] at hok
    obtain ⟨g₃, reports', hp₃, hrun⟩ := runPasses_early hg todo (k + 1) g₂ _ (hp.next hr)
      fun j pass' hj => by
        have := hearly (j + 1) pass' hj
        rwa [show k + 1 + j = k + (j + 1) by omega]
    refine ⟨g₃, reports', ?_, fun rest => ?_⟩
    · rw [List.length_cons, show k + (todo.length + 1) = k + 1 + todo.length by omega]
      exact hp₃
    · rw [List.cons_append, runPasses_of_ok hok]
      exact hrun rest

theorem firstUnlowered_eq_none (hl : g.Listed) (hprim : ∀ b, ∀ i ∈ g.code b, i.op.isPrim = true) :
    g.firstUnlowered? = none := by
  unfold Graph.firstUnlowered?
  rw [List.findSome?_eq_none_iff]
  intro id hid
  obtain ⟨B, hB, hid⟩ := List.mem_flatMap.mp hid
  obtain ⟨k, hk, rfl⟩ := List.getElem_of_mem hB
  have hlist : g.listing ⟨k⟩ = (g.blocks.toList[k]).instrs := by
    rw [listing, Array.getD_eq_getD_getElem?, Array.getElem?_eq_getElem (by simpa using hk)]
    rfl
  rw [← hlist] at hid
  obtain ⟨i, hi, -⟩ := hl.found _ id hid
  rw [hi, Option.filter_eq_none_iff]
  rintro _ ⟨⟩
  rw [hprim ⟨k⟩ i (mem_code.mpr ⟨id, hid, hi⟩)]
  simp

/-- Lowering succeeds on every finished graph, pass by pass. -/
theorem lower_ok (hg : g.Sketch []) : ∃ g₆, Passed g 6 g₆ ∧
    Changes (Frames g₆) g₆ (lower g).graph ∧ (lower g).error = none := by
  obtain ⟨g₆, reports, hp, hrun⟩ := runPasses_early hg (passes.take 6) 0 g [] .start
    fun j pass hj => by
      have hearly : early = (passes.take 6).map (·.run) := rfl
      rw [Nat.zero_add, hearly, List.getElem?_map, hj]
      rfl
  have hs := hp.staged hg
  obtain ⟨u, g₇, hok, hframes⟩ := runs_calls hs
  rw [hp.blockIds] at hok
  have hrun₇ : runPasses g.blockIds passes g [] = ⟨g₇, _, none⟩ :=
    (hrun [⟨"calls", lowerCalls⟩]).trans (runPasses_of_ok hok _)
  have hlow := hframes.lowered hs
  obtain ⟨reports', hlower⟩ : ∃ reports', lower g = ⟨g₇, reports', none⟩ := by
    unfold lower
    rw [hrun₇]
    simp only [firstUnlowered_eq_none hlow.ssa.listed hlow.prim]
    exact ⟨_, rfl⟩
  refine ⟨g₆, hp, ?_, ?_⟩
  · rw [hlower]
    exact hframes
  · rw [hlower]

/-- What lowering makes of a finished graph. -/
theorem lower_lowered (hg : g.Sketch []) {low high : Nat} (hr : g.Refers low high) :
    (lower g).error = none ∧ Lowered (lower g).graph ∧ (lower g).graph.Refers low high ∧
      (lower g).graph.parameters ⟨0⟩ = [] := by
  obtain ⟨g₆, hp, hframes, herror⟩ := lower_ok hg
  refine ⟨herror, hframes.lowered (hp.staged hg), hframes.refers_frames (hp.refers hr), ?_⟩
  rw [hframes.parameters_frames, hp.parameters, Graph.parameters, List.map_eq_nil_iff,
    List.filter_eq_nil_iff]
  intro i hi hop
  exact hg.plain i hi (by simpa using hop)

end

/-! ### Branches -/

/-- Lowering leaves the edges between blocks. -/
theorem lower_successors {g : Graph} (hg : g.Sketch []) (b : BlockId) : (lower g).graph.successors b = g.successors b := by
  obtain ⟨g₆, hp, hframes, -⟩ := lower_ok hg
  rw [hframes.successors, hp.successors]

theorem lower_parameters {g : Graph} (hg : g.Sketch []) (b : BlockId) : (lower g).graph.parameters b = g.parameters b := by
  obtain ⟨g₆, hp, hframes, -⟩ := lower_ok hg
  rw [hframes.parameters_frames, hp.parameters]

section

variable {g g₁ : Graph} {k : Nat}

theorem Expansion.snoc {R : Instr → List Instr → Prop} {xs ys : List Instr} {i : Instr}
    (h : Expansion R (xs ++ [i]) ys) : ∃ zs piece, ys = zs ++ piece ∧ R i piece := by
  induction xs generalizing ys with
  | nil =>
    cases h with
    | cons hr hrest =>
      cases hrest
      exact ⟨[], _, by simp, hr⟩
  | cons x xs ih =>
    cases h with
    | cons _ hrest =>
      obtain ⟨zs, piece, rfl, hr⟩ := ih hrest
      exact ⟨_ ++ zs, piece, (List.append_assoc ..).symm, hr⟩

/-- A branch stays at the end of its block until its pass. -/
theorem Passed.branch (h : Passed g k g₁) {b : BlockId} {pre : List Instr} {x v : InstrId}
    (hcode : g.code b = pre ++ [⟨x, .script .branch, [.value v], b⟩]) (hk : k ≤ 5) :
    ∃ pre', g₁.code b = pre' ++ [⟨x, .script .branch, [.value v], b⟩] := by
  induction h with
  | start => exact ⟨pre, hcode⟩
  | @next k g₁ g₂ hp hr ih =>
    obtain ⟨pre', hpre⟩ := ih (by omega)
    have hlt : b.index < g₁.blocks.size := lt_of_mem_code (by rw [hpre]; exact List.mem_append_right _ (.head _))
    obtain ⟨zs, piece, hzs, ⟨hstep, -⟩⟩ := Expansion.snoc (hpre ▸ hr.code b hlt)
    cases hstep with
    | keep => exact ⟨zs, hzs⟩
    | branch => omega

/-- Where a list that ends in two elements is cut at another one. -/
theorem append_cons_eq_snoc {α : Type} {area rest xs : List α} {i a c : α} (h : area ++ i :: rest = xs ++ [a, c]) :
    (rest = [] ∧ i = c ∧ area = xs ++ [a]) ∨ (rest = [c] ∧ i = a) ∨ ∃ zs, rest = zs ++ [a, c] := by
  rcases List.eq_nil_or_concat rest with rfl | ⟨rest, d, rfl⟩
  · have h' : (area).concat i = (xs ++ [a]).concat c := by simpa using h
    obtain ⟨h₁, h₂⟩ := List.concat_inj.mp h'
    exact .inl ⟨rfl, h₂, h₁⟩
  · rcases List.eq_nil_or_concat rest with rfl | ⟨rest, d', rfl⟩
    · have h' : (area.concat i).concat d = (xs.concat a).concat c := by simpa using h
      obtain ⟨h₁, rfl⟩ := List.concat_inj.mp h'
      obtain ⟨-, rfl⟩ := List.concat_inj.mp h₁
      exact .inr (.inl ⟨rfl, rfl⟩)
    · have h' : ((area ++ i :: rest).concat d').concat d = (xs.concat a).concat c := by simpa using h
      obtain ⟨h₁, rfl⟩ := List.concat_inj.mp h'
      obtain ⟨-, rfl⟩ := List.concat_inj.mp h₁
      exact .inr (.inr ⟨rest, by simp⟩)

theorem Framed.eq_nil {n : Nat} {b : BlockId} {ys : List Instr} (h : Framed n b [] ys) : ys = [] := by
  generalize hnil : [] = xs at h
  cases h with
  | nil => rfl
  | simple => cases hnil
  | stub => simp at hnil
  | call => simp at hnil

/-- A stub that is called at the end keeps its last push before it. -/
theorem Framed.snoc {n : Nat} {b : BlockId} {xs ys : List Instr} {p v t : InstrId} {name : String}
    (h : Framed n b (xs ++ [pushInstr b p v, stubInstr b t name 1]) ys) :
    ∃ zs, ys = zs ++ [pushInstr b p v, stubInstr b t name 1] := by
  generalize hall : xs ++ [pushInstr b p v, stubInstr b t name 1] = all at h
  induction h generalizing xs with
  | nil => simp at hall
  | @simple i rest rest' hsimple _ _ ih =>
    rcases append_cons_eq_snoc (show [] ++ i :: rest = xs ++ [pushInstr b p v, stubInstr b t name 1] from hall.symm) with ⟨-, -, hnil⟩ | ⟨-, hi⟩ | ⟨zs, hzs⟩
    · simp at hnil
    · rw [hi] at hsimple
      cases hsimple
    · obtain ⟨ws, rfl⟩ := ih hzs.symm
      exact ⟨i :: ws, rfl⟩
  | @stub area rest rest' i o harea hop _ _ hrest ih =>
    rcases append_cons_eq_snoc hall.symm with ⟨rfl, rfl, rfl⟩ | ⟨-, hi⟩ | ⟨zs, hzs⟩
    · obtain rfl := hrest.eq_nil
      exact ⟨openInstr b o (pushCount (xs ++ [pushInstr b p v])) :: xs, by simp⟩
    · rw [hi] at hop
      cases hop
    · obtain ⟨ws, rfl⟩ := ih hzs.symm
      exact ⟨openInstr b o (pushCount area) :: (area ++ i :: ws), by simp⟩
  | @call area rest rest' x f r o₁ p' c o₂ _ _ _ _ _ _ ih =>
    rcases append_cons_eq_snoc hall.symm with ⟨-, hi, -⟩ | ⟨-, hi⟩ | ⟨zs, hzs⟩
    · cases hi
    · cases hi
    · obtain ⟨ws, rfl⟩ := ih hzs.symm
      exact ⟨openInstr b o₁ 1 :: pushInstr b p' f :: stubInstr b c "checkFunction" 1 ::
        openInstr b o₂ (pushCount area) :: (area ++ callInstr b x c r (pushCount area) :: ws), by simp⟩

end

/-- Every graph of a script is in strict single assignment, and so is what lowering makes of it. -/
theorem construct_lower_strictSSA (source : String) (graphs : List Graph)
    (h : Construction.construct source = .ok graphs) :
    ∀ g ∈ graphs, g.StrictSSA ∧ (lower g).error = none ∧ (lower g).graph.StrictSSA := by
  intro g hg
  unfold Construction.construct at h
  split at h
  · obtain ⟨k, hk, rfl⟩ := List.getElem_of_mem hg
    obtain ⟨hsketch, -⟩ := sketch_of_graphsOf h (List.getElem?_eq_getElem hk)
    obtain ⟨g₆, hp, hframes, herror⟩ := lower_ok hsketch
    exact ⟨hsketch.strictSSA, herror, hframes.strictSSA_frames (hp.staged hsketch).ssa⟩
  · cases h

/-- A script with a function that returns from one arm of a branch. -/
def branchingSource : String :=
  "function f(a) { if (a) return [a]; a.b = new C(a) } f(x ? 1 : y)"

theorem branchingSource_strictSSA :
    ∃ graphs, Construction.construct branchingSource = .ok graphs ∧
      graphs.map (·.blocks.size) = [4, 4] ∧
      ∀ g ∈ graphs, g.StrictSSA ∧ (lower g).error = none ∧ (lower g).graph.StrictSSA := by
  have hsizes : (Construction.construct branchingSource).toOption.map
      (·.map (·.blocks.size)) = some [4, 4] := by decide +kernel
  cases hg : Construction.construct branchingSource with
  | error e =>
    rw [hg] at hsizes
    cases hsizes
  | ok graphs =>
    rw [hg] at hsizes
    exact ⟨graphs, rfl, Option.some.inj hsizes, construct_lower_strictSSA branchingSource graphs hg⟩

end ScriptEngine.Lowering
