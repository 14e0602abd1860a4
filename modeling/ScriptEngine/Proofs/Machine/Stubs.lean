import ScriptEngine.Proofs.Lowering.Lowered
import ScriptEngine.Proofs.Machine.Areas

/-!
Graphs of stubs. They consist of primitive operations and call no functions, so lowering only opens
areas for their calls, and what it makes of them runs as they do, in every world. Building such a graph
step by step keeps its numbers in order.
-/

namespace ScriptEngine

open State Lowering

/-- Primitive code that calls no function: what stubs are made of. -/
structure Primitive (code : List Instr) : Prop extends Unframed code where
  prim : ∀ i ∈ code, i.op.isPrim = true
  plain : ∀ i ∈ code, i.op ≠ .prim .call

namespace Lowering

section

variable {n : Nat} {b : BlockId} {waiting : List Waiting} {code code' : List Instr}

/-- Without function calls, lowering adds nothing but areas. -/
inductive WithAreas (b : BlockId) : List Instr → List Instr → Prop
  | nil : WithAreas b [] []
  | keep {i : Instr} {code code' : List Instr} : WithAreas b code code' → WithAreas b (i :: code) (i :: code')
  | area {o : InstrId} {count : Nat} {code code' : List Instr} : WithAreas b code code' →
    WithAreas b code (openInstr b o count :: code')

theorem Woven.withAreas (h : Woven n b waiting code code') (hplain : ∀ i ∈ code, i.op ≠ .prim .call) :
    WithAreas b code code' := by
  have hopening : ∀ {call : Instr} {new rest rest' : List Instr} {f : Instr → Instr}, Opening n b call new f →
      call.op ≠ .prim .call → WithAreas b rest rest' → WithAreas b rest (new ++ rest'.map f) := by
    intro call new rest rest' f h hop hadded
    cases h with
    | stub =>
      rw [List.map_id]
      exact .area hadded
    | call hcall => exact absurd hcall hop
  induction h with
  | nil => exact .nil
  | idle _ _ _ ih | call _ _ _ ih | push _ _ ih => exact .keep (ih fun j hj => hplain j (by simp [hj]))
  | bare _ _ h _ ih => exact hopening h (hplain _ (by simp)) (.keep (ih fun j hj => hplain j (by simp [hj])))
  | @first _ call _ after _ _ _ _ _ h hrest ih =>
    refine hopening h (hplain call (List.mem_cons_of_mem _ ?_)) (.keep (ih fun j hj => hplain j (by simp [hj])))
    exact hrest.sublist.subset (by simp)

theorem WithAreas.parameters (h : WithAreas b code code') :
    code'.filter (·.op == .prim .phi) = code.filter (·.op == .prim .phi) := by
  induction h with
  | nil => rfl
  | @keep i _ _ _ ih => simp only [List.filter_cons, ih]
  | area _ ih => rw [List.filter_cons_of_neg (by simp), ih]

theorem WithAreas.subset (h : WithAreas b code code') : code ⊆ code' := by
  induction h with
  | nil => exact List.Subset.refl _
  | keep _ ih => exact List.cons_subset_cons _ ih
  | area _ ih => exact List.subset_cons_of_subset _ ih

theorem WithAreas.runCode {V ε σ : Type} (W : Meaning.World V ε σ) (h : WithAreas b code code') :
    ∀ ρ, W.runCode code' ρ = W.runCode code ρ := by
  induction h with
  | nil => exact fun _ => rfl
  | @keep i _ _ _ ih =>
    intro ρ
    unfold Meaning.World.runCode
    simp only [ih]
  | area _ ih =>
    intro ρ
    rw [← ih ρ]
    exact pure_bind _ _

end

/-- `g'` is `g` with areas for arguments in its blocks. -/
structure AddsAreas (g g' : Graph) : Prop where
  listed : g'.Listed
  blocks : g'.blocks.size = g.blocks.size
  successors : ∀ b, g'.successors b = g.successors b
  code : ∀ b, WithAreas b (g.code b) (g'.code b)

theorem AddsAreas.runAt {V ε σ : Type} {g g' : Graph} (h : AddsAreas g g') (W : Meaning.World V ε σ) (jumps : Nat) :
    ∀ b ρ, W.runAt g' jumps b ρ = W.runAt g jumps b ρ := by
  induction jumps with
  | zero => exact fun _ _ => rfl
  | succ jumps ih =>
    intro b ρ
    have henter : ∀ ρ b, W.enter g' ρ b = W.enter g ρ b := fun ρ b => by
      unfold Meaning.World.enter Graph.parameters
      rw [(h.code b).parameters]
    unfold Meaning.World.runAt
    rw [(h.code b).runCode W ρ, h.successors b]
    simp only [henter, ih]

theorem AddsAreas.run {V ε σ : Type} {g g' : Graph} (h : AddsAreas g g') (W : Meaning.World V ε σ) (jumps : Nat) :
    W.run g' jumps = W.run g jumps := h.runAt W jumps _ _

/-! ### The passes -/

/-- Steps that change nothing, one after another. -/
theorem forM_of_keeps {ε σ α : Type} {s : σ} {f : α → EStateM ε σ PUnit} {l : List α}
    (h : ∀ a ∈ l, f a s = .ok () s) : l.forM f s = .ok () s := by
  induction l with
  | nil => rfl
  | cons a l ih => exact forM_cons_eq_ok.mpr ⟨s, h a (by simp), ih fun a ha => h a (by simp [ha])⟩

section

variable {g : Graph} {b : BlockId}

/-- A pass over operations of scripts finds none. -/
theorem forBlock_prim {step : Instr → LowerM Unit} (hl : g.Listed) (hb : b.index < g.blocks.size)
    (hstep : ∀ i ∈ g.code b, step i = pure ()) : forBlock b step g = .ok () g := by
  obtain ⟨B, hB, hlist, -⟩ := block_of_lt hb
  unfold forBlock
  rw [get_bind, hB]
  change (B.instrs.forM fun id => do step (← instrOf id)) g = _
  rw [hlist, ← hl.code_ids b]
  refine forM_of_keeps fun id hid => ?_
  obtain ⟨i, hi, rfl⟩ := List.mem_map.mp hid
  rw [bind_of_ok (instrOf_of_mem hl hi), hstep i hi]
  rfl

theorem early_prim (hl : g.Listed) (hb : b.index < g.blocks.size)
    (hprim : ∀ i ∈ g.code b, i.op.isPrim = true) : ∀ pass ∈ passes.take 6, pass.run b g = .ok () g := by
  have hops : ∀ i ∈ g.code b, ∃ op, i.op = .prim op := fun i hi => by
    have := hprim i hi
    cases hop : i.op with
    | prim op => exact ⟨op, rfl⟩
    | script op => simp [hop, Op.isPrim] at this
  have hall : ∀ step : Instr → LowerM Unit, (∀ i op, i.op = .prim op → step i = pure ()) →
      forBlock b step g = .ok () g := fun step hstep =>
    forBlock_prim hl hb fun i hi => by
      obtain ⟨op, hop⟩ := hops i hi
      exact hstep i op hop
  intro pass hpass
  simp only [passes, List.take_succ_cons, List.take_zero, List.mem_cons, List.not_mem_nil, or_false] at hpass
  rcases hpass with rfl | rfl | rfl | rfl | rfl | rfl
  · exact hall _ fun i op hop => by simp [propertyOp?, hop]
  · exact hall _ fun i op hop => by simp [hop]
  · exact hall _ fun i op hop => by simp [lowerObject, hop]
  · exact hall _ fun i op hop => by simp [hop]
  · exact hall _ fun i op hop => by simp [hop]
  · exact hall _ fun i op hop => by simp [hop]

theorem WithAreas.mem {b : BlockId} {code code' : List Instr} (h : WithAreas b code code') {i : Instr}
    (hi : i ∈ code') : i ∈ code ∨ ∃ o count, i = openInstr b o count := by
  induction h with
  | nil => cases hi
  | keep _ ih =>
    rcases List.mem_cons.mp hi with rfl | hi
    · exact .inl (by simp)
    · exact (ih hi).imp_left (List.mem_cons_of_mem _)
  | area _ ih =>
    rcases List.mem_cons.mp hi with rfl | hi
    · exact .inr ⟨_, _, rfl⟩
    · exact ih hi

/-- Passes that change nothing only report. -/
theorem runPasses_of_keeps {blocks : List BlockId} {todo : List Pass}
    (h : ∀ pass ∈ todo, (blocks.forM pass.run) g = .ok () g) : ∀ reports, ∃ reports', ∀ rest,
      runPasses blocks (todo ++ rest) g reports = runPasses blocks rest g reports' := by
  induction todo with
  | nil => exact fun reports => ⟨reports, fun _ => rfl⟩
  | cons pass todo ih =>
    intro reports
    obtain ⟨reports', hrest⟩ := ih (fun p hp => h p (by simp [hp])) _
    exact ⟨reports', fun rest => (runPasses_of_ok (h pass (by simp)) reports).trans (hrest rest)⟩

theorem early_keeps (hl : g.Listed) (hprim : ∀ b, ∀ i ∈ g.code b, i.op.isPrim = true) :
    ∀ pass ∈ passes.take 6, (g.blockIds.forM pass.run) g = .ok () g := fun pass hpass =>
  forM_of_keeps fun b hb => early_prim hl (mem_blockIds.mp hb) (hprim b) pass hpass

/-- Lowering leaves a primitive graph without calls as it is. -/
theorem lower_idle (hl : g.Listed) (hprim : ∀ b, ∀ i ∈ g.code b, i.op.isPrim = true)
    (hidle : ∀ b, ∀ i ∈ g.code b, Idle i) : (lower g).error = none ∧ (lower g).graph = g := by
  have hcalls : ∀ b ∈ g.blockIds, lowerCalls b g = .ok () g := by
    intro b hb
    obtain ⟨_, _, hok, rfl, rfl⟩ :=
      @runs_idle g b [] hl (g.code b) fun j hj => ⟨hidle b j hj, hj⟩
    rw [lowerCalls_apply hl (mem_blockIds.mp hb), bind_of_ok hok]
    rfl
  have hall : ∀ pass ∈ passes, (g.blockIds.forM pass.run) g = .ok () g := by
    intro pass hpass
    rw [show passes = passes.take 6 ++ [⟨"calls", lowerCalls⟩] from rfl, List.mem_append] at hpass
    rcases hpass with hpass | hpass
    · exact early_keeps hl hprim pass hpass
    · obtain rfl := List.mem_singleton.mp hpass
      exact forM_of_keeps hcalls
  obtain ⟨reports, hrun⟩ := runPasses_of_keeps hall []
  have hpasses : runPasses g.blockIds passes g [] = ⟨g, reports, none⟩ := by
    simpa [runPasses] using hrun []
  have hnone : g.firstUnlowered? = none := firstUnlowered_eq_none hl hprim
  unfold lower
  rw [hpasses]
  simp only [hnone, and_self]

/-- Lowering of a primitive graph whose calls find their arguments only opens areas. -/
theorem lower_primitive (hl : g.Listed) (hprim : ∀ b, Primitive (g.code b))
    (hsettles : ∀ b, Settles (g.code b)) : (lower g).error = none ∧
      Changes (fun b code => Woven g.instrs.size b [] (g.code b) code) g (lower g).graph := by
  obtain ⟨reports, hrun⟩ := runPasses_of_keeps (early_keeps hl fun b => (hprim b).prim) []
  have hcalls : Runs (g.blockIds.forM lowerCalls) g fun _ g' =>
      Changes (fun b code => Woven g.instrs.size b [] (g.code b) code) g g' := by
    refine runs_pass (I := fun _ => True) hl trivial fun b hb g₁ hl₁ _ hsize hblocks hcode => ?_
    refine (runs_lowerCalls hl₁ (hb.trans_eq hblocks.symm) (hcode ▸ (hprim b).toUnframed)
      (hcode ▸ hsettles b)).mono ?_
    rintro _ g₂ ⟨code', hwoven, he⟩
    rw [hcode] at hwoven
    exact ⟨trivial, code', he, hwoven.mono hsize⟩
  obtain ⟨_, g', hok, hchanges⟩ := hcalls
  have hpasses : runPasses g.blockIds passes g [] = ⟨g', _, none⟩ :=
    (hrun [⟨"calls", lowerCalls⟩]).trans (runPasses_of_ok hok _)
  have hnone : g'.firstUnlowered? = none := by
    refine firstUnlowered_eq_none hchanges.listed fun b i hi => ?_
    have hwoven := hchanges.code b ((Graph.lt_of_mem_code hi).trans_eq hchanges.blocks)
    rcases (hwoven.withAreas (hprim b).plain).mem hi with hi | ⟨o, count, rfl⟩
    · exact (hprim b).prim i hi
    · rfl
  unfold lower
  rw [hpasses]
  simp only [hnone]
  exact ⟨trivial, hchanges⟩

theorem addsAreas_lower (hl : g.Listed) (hprim : ∀ b, Primitive (g.code b))
    (hsettles : ∀ b, Settles (g.code b)) : AddsAreas g (lower g).graph := by
  have hchanges := (lower_primitive hl hprim hsettles).2
  refine ⟨hchanges.listed, hchanges.blocks, hchanges.successors, fun b => ?_⟩
  by_cases hb : b.index < g.blocks.size
  · exact (hchanges.code b hb).withAreas (hprim b).plain
  · rw [code_eq_nil hb, code_eq_nil (by rwa [hchanges.blocks])]
    exact .nil

end

end Lowering

namespace Engine

/-- Whether there are arguments to be forwarded after an instruction. -/
def forwardsAfter (forwards : Bool) (i : Instr) : Bool :=
  if i.op = .prim .forward then true else if i.op = .prim .forwardCall then false else forwards

theorem Holding.step_idle {h : Holding} {i : Instr} (hopen : i.op ≠ .prim .openArea) (hcall : ¬ i.IsCall) :
    h.step i = some { h with forwards := forwardsAfter h.forwards i } := by
  unfold Holding.step forwardsAfter
  split
  · contradiction
  · rename_i hop
    exact absurd (.inl hop) hcall
  · rename_i hop
    exact absurd (.inr hop) hcall
  · rename_i hop
    rw [if_pos hop]
  · rename_i hop
    rw [if_neg (by simp [hop]), if_pos hop]
  · rename_i hforward hforwardCall
    rw [if_neg hforward, if_neg hforwardCall]

theorem Holding.step_call {i : Instr} {outer : List Nat} {forwards : Bool} (hcall : i.IsCall) :
    Holding.step ⟨i.taken :: outer, forwards⟩ i = some ⟨outer, forwards⟩ := by
  unfold Holding.step
  rcases hcall with hop | hop <;> simp [hop]

theorem forwardsAfter_call {i : Instr} {forwards : Bool} (hcall : i.IsCall) :
    forwardsAfter forwards i = forwards := by
  unfold forwardsAfter
  rcases hcall with hop | hop <;> simp [hop]

section

variable {n : Nat} {b : BlockId} {waiting : List Waiting} {code code' : List Instr}

/-- What lowering has woven leaves no area open. -/
theorem holding_woven (h : Woven n b waiting code code') (hp : Primitive code) :
    ∀ {outer : List Nat} {forwards : Bool},
      code'.foldlM Holding.step ⟨waiting.map (·.call.taken) ++ outer, forwards⟩ =
        some ⟨outer, code.foldl forwardsAfter forwards⟩ := by
  have htail : ∀ {i : Instr} {code : List Instr}, Primitive (i :: code) → Primitive code := fun h =>
    ⟨h.toUnframed.tail, fun j hj => h.prim j (by simp [hj]), fun j hj => h.plain j (by simp [hj])⟩
  have hopening : ∀ {call : Instr} {new code : List Instr} {f : Instr → Instr} {areas : List Nat} {forwards : Bool},
      Opening n b call new f → call.op ≠ .prim .call →
      (new ++ code.map f).foldlM Holding.step ⟨areas, forwards⟩ =
        code.foldlM Holding.step ⟨call.taken :: areas, forwards⟩ := by
    intro call new code f areas forwards h hop
    cases h with
    | stub =>
      rw [List.map_id, List.singleton_append, List.foldlM_cons]
      simp [Holding.step, Instr.rawInput, Builder.raw]
    | call hcall => exact absurd hcall hop
  induction h with
  | nil =>
    intro outer forwards
    rfl
  | @idle _ i _ _ _ hcall _ ih =>
    intro outer forwards
    rw [List.foldlM_cons, Holding.step_idle (hp.closed i (by simp)) hcall]
    exact ih (htail hp)
  | @call _ i _ _ hcall _ _ ih =>
    intro outer forwards
    rw [List.foldlM_cons, List.map_cons, List.cons_append, Holding.step_call hcall, List.foldl_cons,
      forwardsAfter_call hcall]
    exact ih (htail hp)
  | @bare _ i _ _ _ _ hcall _ h _ ih =>
    intro outer forwards
    rw [hopening h (hp.plain i (by simp)), List.foldlM_cons, Holding.step_call hcall, List.foldl_cons,
      forwardsAfter_call hcall]
    exact ih (htail hp)
  | @push _ _ i _ _ _ _ hop _ ih =>
    intro outer forwards
    rw [List.foldlM_cons, Holding.step_idle (hp.closed i (by simp)) (by simp [Instr.IsCall, hop])]
    exact ih (htail hp)
  | @first waiting call i after _ _ _ _ hop h hrest ih =>
    intro outer forwards
    rw [hopening h (hp.plain call (List.mem_cons_of_mem _ (hrest.sublist.subset (by simp)))), List.foldlM_cons,
      Holding.step_idle (hp.closed i (by simp)) (by simp [Instr.IsCall, hop])]
    exact ih (htail hp)

end

/-- A stub whose calls find their arguments, and which forwards what it prepares for that. -/
structure Stublike (g : Graph) : Prop where
  listed : g.Listed
  primitive : ∀ b, Primitive (g.code b)
  settles : ∀ b, Settles (g.code b)
  forwards : ∀ b, (g.code b).foldl forwardsAfter false = false

theorem Stublike.balances {g : Graph} (h : Stublike g) : Balances (lower g).graph := by
  intro b
  have hchanges := (lower_primitive h.listed h.primitive h.settles).2
  by_cases hb : b.index < g.blocks.size
  · have hholds := @holding_woven _ _ _ _ _ (hchanges.code b hb) (h.primitive b) [] false
    rw [h.forwards b] at hholds
    exact hholds
  · rw [code_eq_nil (by rwa [hchanges.blocks])]
    rfl

/-- The program of a stub does what the graph of the stub does as it was built. -/
theorem Stublike.emitProgram_runs {scope : EmissionScope} {g : Graph} {e e' : Engine} {p : Program}
    {record : CodeRecord} (hg : Stublike g) (hlower : scope.graph = (lower g).graph)
    (h : emitProgram scope e = .ok (p, record) e') : ∃ words log, Answered scope.resolve e log e' ∧
      (∀ b, Relation.ReflTransGen g.Edge ⟨0⟩ b → AllNamed (g.code b) words log) ∧
      ∀ call self jumps, Machine.runFrom call p self jumps ⟨0⟩ ∅ =
        (machineWorld words call self).run g jumps := by
  have hadds := addsAreas_lower hg.listed hg.primitive hg.settles
  obtain ⟨order, words, log, hanswered, hreach, hnamed, -, hruns⟩ :=
    Engine.emitProgram_runs (hlower ▸ hadds.listed) (hlower ▸ hg.balances) h
  refine ⟨words, log, hanswered, fun b hb => ?_, fun call self jumps => ?_⟩
  · have hedges : scope.graph.Edge = g.Edge := by
      funext a b
      rw [hlower, Graph.Edge, hadds.successors, Graph.Edge]
    have hcode := hnamed b (hreach b (hedges ▸ hb))
    rw [hlower] at hcode
    exact fun i hi => hcode i ((hadds.code b).subset hi)
  · rw [hruns, hlower, hadds.run]

/-- Whether a run succeeds. -/
def succeeds {ε σ α : Type} : EStateM.Result ε σ α → Bool
  | .ok _ _ => true
  | .error _ _ => false

theorem succeeds_iff {ε σ α : Type} {r : EStateM.Result ε σ α} : succeeds r = true ↔ ∃ a s, r = .ok a s := by
  cases r <;> simp [succeeds]

/-- Code generation for a graph whose stubs have all been compiled. -/
def scopeOf (g : Graph) : EmissionScope :=
  { graph := (Lowering.lower g).graph, resolve := resolve (compileNested 0) #[], trapOnEntry := false }

end Engine
end ScriptEngine
