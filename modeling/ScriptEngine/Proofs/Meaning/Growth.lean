import Mathlib.Data.List.Basic
import Mathlib.Order.Nat
import Mathlib.Tactic.Common
import ScriptEngine.Graph.Builder
import ScriptEngine.Proofs.Meaning.Execution

/-!
How execution of a finished graph relates to the graph while it was being built. Building only
adds: instructions keep their numbers, and a block that is not open any more keeps its contents.
So what was built so far can be executed inside the finished graph, up to the end of the block
that was current.
-/

namespace ScriptEngine.Meaning

/-! ### Graphs that grow -/

/-- `g'` has everything that `g` has, and differs from it only in new blocks and at the ends of the
blocks in `touched`. -/
structure Extends (g g' : Graph) (touched : Nat → Prop) : Prop where
  instrs : ∀ i < g.instrs.size, g'.instrs[i]? = g.instrs[i]?
  instrs_le : g.instrs.size ≤ g'.instrs.size
  blocks_le : g.blocks.size ≤ g'.blocks.size
  closed : ∀ i < g.blocks.size, ¬ touched i → g'.blocks[i]? = g.blocks[i]?
  longer : ∀ (i : Nat) (B : Block), g.blocks[i]? = some B →
    ∃ B', g'.blocks[i]? = some B' ∧ B.instrs <+: B'.instrs

namespace Extends

variable {g g₁ g₂ : Graph} {S T : Nat → Prop}

theorem refl (g : Graph) (S : Nat → Prop) : Extends g g S :=
  ⟨fun _ _ => rfl, le_rfl, le_rfl, fun _ _ _ => rfl, fun _ B h => ⟨B, h, List.prefix_rfl⟩⟩

theorem trans (h₁ : Extends g g₁ S) (h₂ : Extends g₁ g₂ T) :
    Extends g g₂ fun i => S i ∨ T i where
  instrs i hi := (h₂.instrs i (hi.trans_le h₁.instrs_le)).trans (h₁.instrs i hi)
  instrs_le := h₁.instrs_le.trans h₂.instrs_le
  blocks_le := h₁.blocks_le.trans h₂.blocks_le
  closed i hi hn := by
    rw [not_or] at hn
    exact (h₂.closed i (hi.trans_le h₁.blocks_le) hn.2).trans (h₁.closed i hi hn.1)
  longer i B h := by
    obtain ⟨B₁, hB₁, hp₁⟩ := h₁.longer i B h
    obtain ⟨B₂, hB₂, hp₂⟩ := h₂.longer i B₁ hB₁
    exact ⟨B₂, hB₂, hp₁.trans hp₂⟩

/-- Only the old blocks matter for what is touched. -/
theorem mono (h : Extends g g₁ S) (hS : ∀ i < g.blocks.size, S i → T i) : Extends g g₁ T :=
  { h with closed := fun i hi hn => h.closed i hi fun hs => hn (hS i hi hs) }

end Extends

/-- A finished graph as seen while it is built: only the blocks in `opened` will still grow. -/
abbrev Finished (g G : Graph) (opened : Nat → Prop) : Prop := Extends g G opened

theorem Finished.earlier {g g' G : Graph} {S T O : Nat → Prop} (h : Finished g' G T)
    (e : Extends g g' S) (hO : ∀ i < g.blocks.size, S i ∨ T i → O i) : Finished g G O :=
  (e.trans h).mono hO

/-! ### Single steps of building -/

/-- The graph after an instruction was appended to a block. -/
def appended (g : Graph) (b : BlockId) (op : Op) (ins : List Input) : Graph :=
  { g with
    instrs := g.instrs.push { id := ⟨g.instrs.size⟩, op, inputs := ins, block := b }
    blocks := g.blocks.modify b.index fun B => { B with instrs := B.instrs ++ [⟨g.instrs.size⟩] } }

theorem append_eq_ok {g : Graph} {b : BlockId} {op : Op} {ins : List Input} {r : InstrId × Graph}
    (h : g.append b op ins = .ok r) :
    b.index < g.blocks.size ∧ r = (⟨g.instrs.size⟩, appended g b op ins) := by
  unfold Graph.append Graph.block at h
  cases hb : g.blocks[b.index]? with
  | none => rw [hb] at h; cases h
  | some B =>
    rw [hb] at h
    cases h
    exact ⟨(Array.getElem?_eq_some_iff.mp hb).1, rfl⟩

theorem setSuccessors_eq_ok {g g' : Graph} {b : BlockId} {next : List BlockId}
    (h : g.setSuccessors b next = .ok g') :
    b.index < g.blocks.size ∧
      g' = { g with blocks := g.blocks.modify b.index ({ · with successors := next }) } := by
  unfold Graph.setSuccessors Graph.block at h
  cases hb : g.blocks[b.index]? with
  | none => rw [hb] at h; cases h
  | some B =>
    rw [hb] at h
    cases h
    exact ⟨(Array.getElem?_eq_some_iff.mp hb).1, rfl⟩

theorem extends_modify (g : Graph) (new : Array Instr) (b : BlockId) (f : Block → Block)
    (hnew : ∀ i < g.instrs.size, new[i]? = g.instrs[i]?) (hle : g.instrs.size ≤ new.size)
    (hf : ∀ B, B.instrs <+: (f B).instrs) :
    Extends g { g with instrs := new, blocks := g.blocks.modify b.index f } (· = b.index) where
  instrs := hnew
  instrs_le := hle
  blocks_le := by simp
  closed i _ hn := by
    rw [Array.getElem?_modify, if_neg fun h => hn h.symm]
  longer i B h := by
    rw [Array.getElem?_modify]
    split
    · exact ⟨f B, by simp [h], hf B⟩
    · exact ⟨B, h, List.prefix_rfl⟩

section

variable (g : Graph) (b : BlockId) (op : Op) (ins : List Input)

theorem extends_appended : Extends g (appended g b op ins) (· = b.index) := by
  apply extends_modify
  · intro i hi
    rw [Array.getElem?_push, if_neg hi.ne]
  · simp
  · intro B
    exact List.prefix_append _ _

@[simp] theorem appended_instrs_size : (appended g b op ins).instrs.size = g.instrs.size + 1 := by
  simp [appended]

@[simp] theorem appended_blocks_size : (appended g b op ins).blocks.size = g.blocks.size := by
  simp [appended]

theorem appended_instr : (appended g b op ins).instrs[g.instrs.size]? =
    some { id := ⟨g.instrs.size⟩, op, inputs := ins, block := b } := by
  simp [appended]

theorem appended_block {B : Block} (h : g.blocks[b.index]? = some B) :
    (appended g b op ins).blocks[b.index]? =
      some { B with instrs := B.instrs ++ [⟨g.instrs.size⟩] } := by
  simp [appended, Array.getElem?_modify, h]

theorem appended_other {i : Nat} (h : i ≠ b.index) :
    (appended g b op ins).blocks[i]? = g.blocks[i]? := by
  rw [appended, Array.getElem?_modify, if_neg h.symm]

end

theorem extends_setSuccessors {g g' : Graph} {b : BlockId} {next : List BlockId}
    (h : g.setSuccessors b next = .ok g') : Extends g g' (· = b.index) := by
  obtain ⟨_, rfl⟩ := setSuccessors_eq_ok h
  exact extends_modify g g.instrs b _ (fun _ _ => rfl) le_rfl fun _ => List.prefix_rfl

theorem extends_addBlock (g : Graph) (S : Nat → Prop) : Extends g g.addBlock.2 S where
  instrs _ _ := rfl
  instrs_le := le_rfl
  blocks_le := by simp [Graph.addBlock]
  closed i hi _ := by
    simp only [Graph.addBlock]
    rw [Array.getElem?_push, if_neg hi.ne]
  longer i B h := by
    have hi := (Array.getElem?_eq_some_iff.mp h).1
    refine ⟨B, ?_, List.prefix_rfl⟩
    simp only [Graph.addBlock]
    rw [Array.getElem?_push, if_neg hi.ne, h]

/-! ### Execution inside a finished graph -/

section

variable {V σ : Type} (A : Answerer V σ) (functions : Nat → Syntax.Function) (G : Graph)
  (inputs : Inputs V)

theorem runBody_cons (id : InstrId) {i : Instr} (rest : List InstrId) (s : Activity V σ)
    (hi : G.instrs[id.index]? = some i) (hret : i.op ≠ .prim .ret) :
    runBody A functions G inputs (id :: rest) s =
      (perform A functions inputs s id i.op i.inputs).bind
        (runBody A functions G inputs rest) := by
  rw [runBody, hi]
  simp only [Option.bind_eq_bind, Option.bind_some]
  split
  · rename_i h _
    exact absurd h hret
  · rfl

theorem runBody_append (xs ys : List InstrId) (s : Activity V σ) :
    runBody A functions G inputs (xs ++ ys) s =
      (runBody A functions G inputs xs s).bind fun
        | (.fell, s) => runBody A functions G inputs ys s
        | (.returned v, s) => some (.returned v, s) := by
  induction xs generalizing s with
  | nil => rfl
  | cons id rest ih =>
    simp only [List.cons_append, runBody]
    cases G.instrs[id.index]? with
    | none => rfl
    | some i =>
      simp only [Option.bind_eq_bind, Option.bind_some]
      split
      · rfl
      · cases perform A functions inputs s id i.op i.inputs with
        | none => rfl
        | some s => exact ih s

/-- Execution comes from one place to another. Blocks are entered in the order of their numbers, so
there are always enough entries left. -/
def Leads (b : BlockId) (k : Nat) (s : Activity V σ) (b' : BlockId) (k' : Nat)
    (s' : Activity V σ) : Prop :=
  ∀ n, G.blocks.size ≤ n + b.index → ∃ n', G.blocks.size ≤ n' + b'.index ∧
    runAt A functions G inputs n b k s = runAt A functions G inputs n' b' k' s'

/-- Execution from a place returns a value. -/
def Returns (b : BlockId) (k : Nat) (s : Activity V σ) (value : V) (world : σ) : Prop :=
  ∀ n, G.blocks.size ≤ n + b.index →
    runAt A functions G inputs n b k s = some (value, world)

variable {A functions G inputs} {b b₁ b₂ : BlockId} {k k₁ k₂ : Nat} {s s₁ s₂ : Activity V σ}

theorem Leads.refl : Leads A functions G inputs b k s b k s := fun n h => ⟨n, h, rfl⟩

theorem Leads.trans (h₁ : Leads A functions G inputs b k s b₁ k₁ s₁)
    (h₂ : Leads A functions G inputs b₁ k₁ s₁ b₂ k₂ s₂) :
    Leads A functions G inputs b k s b₂ k₂ s₂ := by
  intro n hn
  obtain ⟨n₁, hn₁, e₁⟩ := h₁ n hn
  obtain ⟨n₂, hn₂, e₂⟩ := h₂ n₁ hn₁
  exact ⟨n₂, hn₂, e₁.trans e₂⟩

theorem Leads.returns {v : V} {w : σ} (h₁ : Leads A functions G inputs b k s b₁ k₁ s₁)
    (h₂ : Returns A functions G inputs b₁ k₁ s₁ v w) : Returns A functions G inputs b k s v w := by
  intro n hn
  obtain ⟨n₁, hn₁, e₁⟩ := h₁ n hn
  exact e₁.trans (h₂ n₁ hn₁)

/-- Instructions that were appended to a block run where the block was before. -/
theorem leads_of_runBody {B : Block} {old code rest : List InstrId}
    (hB : G.blocks[b.index]? = some B) (hi : B.instrs = old ++ code ++ rest)
    (hr : runBody A functions G inputs code s = some (.fell, s₁)) :
    Leads A functions G inputs b old.length s b (old ++ code).length s₁ := by
  intro n hn
  refine ⟨n, hn, ?_⟩
  have h₁ : B.instrs.drop old.length = code ++ rest := by
    rw [hi, List.append_assoc, List.drop_left]
  have h₂ : B.instrs.drop (old ++ code).length = rest := by
    rw [hi, List.drop_left]
  unfold runAt
  rw [hB]
  simp only [Option.bind_eq_bind, Option.bind_some, h₁, h₂]
  rw [runBody_append, hr]
  rfl

theorem returns_of_runBody {B : Block} {old code rest : List InstrId} {v : V}
    (hB : G.blocks[b.index]? = some B) (hi : B.instrs = old ++ code ++ rest)
    (hr : runBody A functions G inputs code s = some (.returned v, s₁)) :
    Returns A functions G inputs b old.length s v s₁.world := by
  intro n hn
  have h₁ : B.instrs.drop old.length = code ++ rest := by
    rw [hi, List.append_assoc, List.drop_left]
  unfold runAt
  rw [hB]
  simp only [Option.bind_eq_bind, Option.bind_some, h₁]
  rw [runBody_append, hr]
  rfl

/-- At the end of a block, execution goes on in a later one. -/
theorem leads_of_jump {B : Block} {target : BlockId} (hB : G.blocks[b.index]? = some B)
    (ht : next? B.successors s.condition = some target) (hlt : b.index < target.index) :
    Leads A functions G inputs b B.instrs.length s target 0 s.enter := by
  intro n hn
  have hb := (Array.getElem?_eq_some_iff.mp hB).1
  obtain ⟨m, rfl⟩ : ∃ m, n = m + 1 := ⟨n - 1, by omega⟩
  refine ⟨m, by omega, ?_⟩
  rw [runAt]
  simp only [hB, Option.bind_eq_bind, Option.bind_some, List.drop_length, runBody, ht]

end

end ScriptEngine.Meaning
