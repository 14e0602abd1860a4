import ScriptEngine.Proofs.Graph.Building
import ScriptEngine.Proofs.Machine.Running

/-!
Running what a builder makes, while it makes it. A finished graph completes every graph that was there
on the way to it; so it can be run from the place that the builder had come to, and each step of the
builder is one step of the run.
-/

namespace ScriptEngine

namespace Graph

open Meaning

/-- A block that does not lead anywhere yet. -/
structure Open (g : Graph) (t : BlockId) : Prop where
  inside : t.index < g.blocks.size
  ends : g.successors t = []

/-- A block in which nothing was put yet. -/
structure Blank (g : Graph) (t : BlockId) : Prop extends g.Open t where
  empty : g.code t = []

/-- `G` has all that `g` has; blocks that lead on are finished, others may be longer. -/
structure Completes (g G : Graph) : Prop where
  code : ∀ b, g.code b <+: G.code b
  finished : ∀ b, g.successors b ≠ [] → G.code b = g.code b ∧ G.successors b = g.successors b

section

variable {g g₁ G : Graph} {c t : BlockId} {op : Op} {ins : List Input} {next : List BlockId}

theorem Completes.refl (g : Graph) : g.Completes g := ⟨fun _ => List.prefix_rfl, fun _ _ => ⟨rfl, rfl⟩⟩

theorem Completes.trans (h : g.Completes g₁) (h₁ : g₁.Completes G) : g.Completes G where
  code b := (h.code b).trans (h₁.code b)
  finished b hb := by
    obtain ⟨hcode, hnext⟩ := h.finished b hb
    obtain ⟨hcode₁, hnext₁⟩ := h₁.finished b (by rwa [hnext])
    exact ⟨hcode₁.trans hcode, hnext₁.trans hnext⟩

theorem Open.ne_new (h : g.Open t) : t ≠ ⟨g.blocks.size⟩ := by
  rintro rfl
  exact lt_irrefl _ h.inside

theorem completes_appended (hl : g.Listed) (hc : g.Open c) (op : Op) (ins : List Input) :
    g.Completes (appended g c op ins) where
  code b := by
    by_cases hb : b = c
    · subst hb
      rw [hl.code_appended_self hc.inside]
      exact List.prefix_append _ _
    · rw [hl.code_appended_other hb]
  finished b hb := by
    have hne : b ≠ c := by
      rintro rfl
      exact hb hc.ends
    exact ⟨hl.code_appended_other hne, successors_appended b⟩

theorem completes_addBlock : g.Completes g.addBlock.2 where
  code b := by rw [code_addBlock]
  finished b _ := ⟨code_addBlock, successors_addBlock⟩

theorem completes_linked (hc : g.Open c) (next : List BlockId) : g.Completes (g.linked c next) where
  code b := by rw [code_linked]
  finished b hb := by
    have hne : b ≠ c := by
      rintro rfl
      exact hb hc.ends
    exact ⟨code_linked, successors_linked_other hne⟩

theorem Open.appended (h : g.Open t) : (appended g c op ins).Open t :=
  ⟨by simpa using h.inside, by rw [successors_appended, h.ends]⟩

theorem Open.addBlock (h : g.Open t) : g.addBlock.2.Open t :=
  ⟨by simpa using h.inside.trans (Nat.lt_succ_self _), by rw [successors_addBlock, h.ends]⟩

theorem Open.linked (h : g.Open t) (hne : t ≠ c) : (g.linked c next).Open t :=
  ⟨by simpa using h.inside, by rw [successors_linked_other hne, h.ends]⟩

theorem Blank.appended (h : g.Blank t) (hl : g.Listed) (hne : t ≠ c) : (appended g c op ins).Blank t :=
  ⟨h.toOpen.appended, by rw [hl.code_appended_other hne, h.empty]⟩

theorem Blank.addBlock (h : g.Blank t) : g.addBlock.2.Blank t :=
  ⟨h.toOpen.addBlock, by rw [code_addBlock, h.empty]⟩

theorem Blank.linked (h : g.Blank t) (hne : t ≠ c) : (g.linked c next).Blank t :=
  ⟨h.toOpen.linked hne, by rw [code_linked, h.empty]⟩

theorem blank_new (g : Graph) : g.addBlock.2.Blank ⟨g.blocks.size⟩ where
  inside := by simp
  ends := by
    rw [successors_addBlock, successors, Array.getD_eq_getD_getElem?, Array.getElem?_eq_none le_rfl]
    rfl
  empty := code_addBlock.trans (code_of_le le_rfl)

end

/-- All instructions are of a kind. -/
def Only (P : Instr → Prop) (g : Graph) : Prop := ∀ b, ∀ i ∈ g.code b, P i

section

variable {P : Instr → Prop} {g : Graph} {c : BlockId} {op : Op} {ins : List Input} {next : List BlockId}

theorem Only.appended (h : g.Only P) (hl : g.Listed) (hc : c.index < g.blocks.size) (hnew : P (g.newInstr c op ins)) :
    (appended g c op ins).Only P := by
  intro b i hi
  by_cases hb : b = c
  · subst hb
    rw [hl.code_appended_self hc] at hi
    rcases List.mem_append.mp hi with hi | hi
    · exact h b i hi
    · exact List.mem_singleton.mp hi ▸ hnew
  · rw [hl.code_appended_other hb] at hi
    exact h b i hi

theorem Only.addBlock (h : g.Only P) : g.addBlock.2.Only P := fun b i hi => h b i (by rwa [code_addBlock] at hi)

theorem Only.linked (h : g.Only P) : (g.linked c next).Only P := fun b i hi => h b i (by rwa [code_linked] at hi)

theorem only_start (name : String) : (Builder.start name).graph.Only P := by
  intro b i hi
  rw [Builder.start, code_addBlock, code_of_le (Nat.zero_le _)] at hi
  cases hi

theorem parameters_eq_nil {b : BlockId} (h : ∀ i ∈ g.code b, i.op ≠ .prim .phi) : g.parameters b = [] := by
  rw [parameters, List.map_eq_nil_iff, List.filter_eq_nil_iff]
  exact fun i hi => by simpa using h i hi

end

end Graph

namespace Engine

open Meaning (Progress)

section

variable {V ε σ : Type} (W : Meaning.World V ε σ) (G : Graph)

/-- Go on in a graph from the end of what a builder has put into its current block. -/
def resume (jumps : Nat) (b : Builder) (s : Progress V) : EStateM ε σ V := do
  depart W G jumps b.current (← W.runCode ((G.code b.current).drop (b.graph.code b.current).length) s)

variable {W : Meaning.World V ε σ} {G g : Graph} {c t yes no : BlockId} {jumps : Nat} {s : Progress V}
  {op : PrimOp} {ins : List Input}

theorem runAt_eq_resume (h : g.code t = []) : W.runAt G (jumps + 1) t s = resume W G jumps ⟨g, t⟩ s := by
  rw [resume, h]
  rfl

theorem drop_code {op : Op} (hl : g.Listed) (hc : c.index < g.blocks.size)
    (hG : (Meaning.appended g c op ins).Completes G) :
    (G.code c).drop (g.code c).length = g.newInstr c op ins ::
      (G.code c).drop ((Meaning.appended g c op ins).code c).length := by
  obtain ⟨rest, hrest⟩ := hG.code c
  rw [← hrest, hl.code_appended_self hc, List.drop_left, List.append_assoc, List.drop_left]
  rfl

/-- An instruction that a builder adds is the next one of the run. -/
theorem resume_perform (hl : g.Listed) (hc : c.index < g.blocks.size)
    (hG : (Meaning.appended g c (.prim op) ins).Completes G)
    (hop : op ≠ .ret ∧ op ≠ .cacheRet ∧ op ≠ .tailCall) : resume W G jumps ⟨g, c⟩ s = (do
      resume W G jumps ⟨Meaning.appended g c (.prim op) ins, c⟩ (← W.perform s (g.newInstr c (.prim op) ins))) := by
  obtain ⟨hret, hcache, htail⟩ := hop
  rw [resume, drop_code hl hc hG, Meaning.World.runCode_cons _ (by simpa [Graph.newInstr] using hret)
    (by simpa [Graph.newInstr] using hcache) (by simpa [Graph.newInstr] using htail), bind_assoc]
  rfl

theorem resume_ret (hl : g.Listed) (hc : c.index < g.blocks.size)
    (hop : op = .ret ∨ op = .cacheRet) (hG : (Meaning.appended g c (.prim op) ins).Completes G) :
    resume W G jumps ⟨g, c⟩ s = pure (W.values s (g.newInstr c (.prim op) ins) 0) := by
  rw [resume, drop_code hl hc hG]
  unfold Meaning.World.runCode
  rcases hop with rfl | rfl <;> rfl

theorem resume_tailCall (hl : g.Listed) (hc : c.index < g.blocks.size)
    (hG : (Meaning.appended g c (.prim .tailCall) ins).Completes G) :
    resume W G jumps ⟨g, c⟩ s = W.tailCall (W.values s (g.newInstr c (.prim .tailCall) ins) 0) := by
  rw [resume, drop_code hl hc hG]
  unfold Meaning.World.runCode
  change (W.tailCall _ >>= fun v => pure (Meaning.Departure.returned v)) >>= _ = _
  rw [bind_assoc]
  exact bind_pure _

theorem resume_linked {next : List BlockId} (hnext : next ≠ []) (hc : c.index < g.blocks.size)
    (hG : (g.linked c next).Completes G) : resume W G jumps ⟨g, c⟩ s =
      match Meaning.next? next s.condition with
      | some target => W.runAt G jumps target (W.enter G s target)
      | none => throw W.stuck := by
  have hself : (g.linked c next).successors c = next := Graph.successors_linked_self hc
  obtain ⟨hcode, hsucc⟩ := hG.finished c (by rwa [hself])
  rw [Graph.code_linked] at hcode
  rw [resume, hcode, List.drop_length, ← hself, ← hsucc]
  rfl

/-- A constant becomes the value of its register. -/
theorem resume_literal (hl : g.Listed) (hc : c.index < g.blocks.size) {k : Const}
    (hG : (Meaning.appended g c (.prim .literal) [.const k]).Completes G) :
    resume W G jumps ⟨g, c⟩ s = resume W G jumps ⟨Meaning.appended g c (.prim .literal) [.const k], c⟩
      (s.setReg ⟨g.instrs.size⟩ (W.const ⟨g.instrs.size⟩ 0 k)) :=
  resume_perform hl hc hG (by simp)

/-- What the world answers becomes the value of a register. -/
theorem resume_value (hl : g.Listed) (hc : c.index < g.blocks.size) (hvalue : op.isValue = true)
    (hliteral : op ≠ .literal ∧ op ≠ .code) (hG : (Meaning.appended g c (.prim op) ins).Completes G) :
    resume W G jumps ⟨g, c⟩ s = (do
      let v ← W.act (g.newInstr c (.prim op) ins) (W.values s (g.newInstr c (.prim op) ins)) []
      resume W G jumps ⟨Meaning.appended g c (.prim op) ins, c⟩ (s.setReg ⟨g.instrs.size⟩ v)) := by
  have hop : op ≠ .ret ∧ op ≠ .cacheRet ∧ op ≠ .tailCall := by
    refine ⟨?_, ?_, ?_⟩ <;> rintro rfl <;> cases hvalue
  rw [resume_perform hl hc hG hop, perform_value rfl hvalue hliteral.1 hliteral.2, bind_assoc]
  rfl

/-- The condition of a branch is the answer of the test. -/
theorem resume_test (hl : g.Listed) (hc : c.index < g.blocks.size) (htest : op.isTest = true)
    {v : Bool} (hv : W.test (g.newInstr c (.prim op) ins) (W.values s (g.newInstr c (.prim op) ins)) = pure v)
    (hG : (Meaning.appended g c (.prim op) ins).Completes G) : resume W G jumps ⟨g, c⟩ s =
      resume W G jumps ⟨Meaning.appended g c (.prim op) ins, c⟩ { s with condition := some v } := by
  have hop : op ≠ .ret ∧ op ≠ .cacheRet ∧ op ≠ .tailCall := by
    refine ⟨?_, ?_, ?_⟩ <;> rintro rfl <;> cases htest
  rw [resume_perform hl hc hG hop, perform_test rfl htest, hv]
  rfl

theorem resume_branch {v : Bool} (hv : s.condition = some v) (hc : c.index < g.blocks.size)
    (hG : (g.linked c [yes, no]).Completes G) : resume W G jumps ⟨g, c⟩ s =
      W.runAt G jumps (if v then yes else no) (W.enter G s (if v then yes else no)) := by
  rw [resume_linked (by simp) hc hG, hv]
  rfl

theorem edge_linked {next : List BlockId} (ht : t ∈ next) (hc : c.index < g.blocks.size)
    (hG : (g.linked c next).Completes G) : G.Edge c t := by
  have hself : (g.linked c next).successors c = next := Graph.successors_linked_self hc
  rw [Graph.Edge, (hG.finished c (by rw [hself]; exact List.ne_nil_of_mem ht)).2, hself]
  exact ht

theorem resume_addBlock : resume W G jumps ⟨g.addBlock.2, c⟩ s = resume W G jumps ⟨g, c⟩ s := by
  rw [resume, resume, Graph.code_addBlock]

theorem enter_regs (h : G.parameters t = []) : (W.enter G s t).regs = s.regs := by
  funext id
  change (if id ∈ G.parameters t then _ else s.regs id) = _
  rw [h, if_neg (by simp)]

end

end Engine
end ScriptEngine
