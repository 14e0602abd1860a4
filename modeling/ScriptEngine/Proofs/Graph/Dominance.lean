import Mathlib.Logic.Relation
import Mathlib.Tactic.Common
import ScriptEngine.Graph.Basic

/-!
Strict single assignment. A block dominates another if every way from the entry to the other
passes through it; every value that an instruction reads is defined earlier in the block, or in a
block that dominates it.
-/

namespace ScriptEngine

/-- The instruction whose result an input is. -/
def Input.value? : Input → Option InstrId
  | .value id => some id
  | .const _ => none

namespace Instr

/-- Results that an instruction reads; the parameter that a value is passed to is none of them. -/
def reads (i : Instr) : List InstrId :=
  (if i.op = .prim .toPhi then i.inputs.drop 1 else i.inputs).filterMap Input.value?

/-- Whether the instruction is the definition of a result. -/
def Defines (i : Instr) (id : InstrId) : Prop := i.id = id ∧ i.op.info.output = true

/-- Whether the instruction passes a value to a parameter. -/
def passesTo (i : Instr) (phi : InstrId) : Bool :=
  i.op = .prim .toPhi && i.inputs.head? = some (.value phi)

end Instr

namespace Graph

/-- Numbers of the instructions of a block. -/
def listing (g : Graph) (b : BlockId) : List InstrId := (g.blocks.getD b.index {}).instrs

def successors (g : Graph) (b : BlockId) : List BlockId := (g.blocks.getD b.index {}).successors

/-- Instructions of a block. -/
def code (g : Graph) (b : BlockId) : List Instr :=
  (g.listing b).filterMap fun id => g.instrs[id.index]?

def Edge (g : Graph) (a b : BlockId) : Prop := b ∈ g.successors a

/-- Every instruction has its own number, and a block lists instructions of its own, each once. -/
structure Listed (g : Graph) : Prop where
  numbered : ∀ (k : Nat) (i : Instr), g.instrs[k]? = some i → i.id = ⟨k⟩
  found : ∀ b, ∀ id ∈ g.listing b, ∃ i, g.instrs[id.index]? = some i ∧ i.block = b
  once : ∀ b, (g.listing b).Nodup
  placed : ∀ (k : Nat) (i : Instr), g.instrs[k]? = some i → i.id ∈ g.listing i.block

/-! ### Dominance -/

/-- A block is reached from the entry on a way that avoids `d`. -/
inductive Avoids (g : Graph) (d : BlockId) : BlockId → Prop where
  | entry : ⟨0⟩ ≠ d → Avoids g d ⟨0⟩
  | step {a b : BlockId} : Avoids g d a → g.Edge a b → b ≠ d → Avoids g d b

/-- Every way from the entry to `b` passes through `d`. -/
def Dominates (g : Graph) (d b : BlockId) : Prop := ¬ g.Avoids d b

/-- A result exists before the instructions of `b` that follow `before`: it is defined earlier in the
block, or in another block that dominates it. -/
def DefinedBefore (g : Graph) (b : BlockId) (before : List Instr) (id : InstrId) : Prop :=
  (∃ d ∈ before, d.Defines id) ∨
    ∃ b', b' ≠ b ∧ g.Dominates b' b ∧ ∃ d ∈ g.code b', d.Defines id

/-- A graph without cycles in which every result is defined once, on all ways to its uses, and every
parameter of a block gets one value from each block before it. -/
structure StrictSSA (g : Graph) : Prop where
  listed : g.Listed
  entry : 0 < g.blocks.size
  inside : ∀ a b, g.Edge a b → a.index < g.blocks.size ∧ b.index < g.blocks.size
  reached : ∀ b : BlockId, b.index < g.blocks.size → Relation.ReflTransGen g.Edge ⟨0⟩ b
  acyclic : ∀ b, ¬ Relation.TransGen g.Edge b b
  defined : ∀ b before i, before ++ [i] <+: g.code b →
    ∀ id ∈ i.reads, g.DefinedBefore b before id
  /-- Whatever stands before a parameter is a parameter. -/
  heads : ∀ b, (g.code b).Pairwise fun i j => j.op = .prim .phi → i.op = .prim .phi
  /-- A parameter gets one value from each block before its own, which exists at the end of that. -/
  passed : ∀ a b, g.Edge a b → ∀ phi ∈ g.code b, phi.op = .prim .phi →
    ∃ pass value, (g.code a).filter (·.passesTo phi.id) = [pass] ∧
      pass.inputs = [.value phi.id, .value value] ∧ g.DefinedBefore a (g.code a) value

section

variable {g g' : Graph} {a b d : BlockId}

theorem Avoids.ne (h : g.Avoids d b) : b ≠ d := by
  cases h with
  | entry h => exact h
  | step _ _ h => exact h

theorem Dominates.refl (g : Graph) (b : BlockId) : g.Dominates b b := fun h => h.ne rfl

/-- What dominates every block before `b` dominates `b`. -/
theorem dominates_of_edges (hb : b ≠ ⟨0⟩) (h : ∀ a, g.Edge a b → g.Dominates d a) :
    g.Dominates d b := by
  intro havoid
  cases havoid with
  | entry => exact hb rfl
  | step hprev hedge _ => exact h _ hedge hprev

theorem Dominates.of_edge (h : g.Dominates d b) (hne : d ≠ b) (he : g.Edge a b) :
    g.Dominates d a := fun havoid => h (havoid.step he hne.symm)

/-- Ways that only use edges of another graph are ways of it. -/
theorem Avoids.mono (h : g.Avoids d b) (he : ∀ a b, g.Edge a b → g'.Edge a b) :
    g'.Avoids d b := by
  induction h with
  | entry hne => exact .entry hne
  | step _ hedge hne ih => exact ih.step (he _ _ hedge) hne

/-- A way to a block only uses edges into blocks that have a way to it; so new edges into new blocks
do not matter to the old ones. -/
theorem Avoids.restrict {P : BlockId → Prop} (h : g'.Avoids d b) (hb : P b)
    (hback : ∀ a b, P b → g'.Edge a b → P a ∧ g.Edge a b) : g.Avoids d b := by
  induction h with
  | entry hne => exact .entry hne
  | step _ hedge hne ih =>
    obtain ⟨ha, he⟩ := hback _ _ hb hedge
    exact (ih ha).step he hne

theorem DefinedBefore.mono {before before' : List Instr} {id : InstrId}
    (h : g.DefinedBefore b before id) (hs : ∀ i ∈ before, i ∈ before') :
    g.DefinedBefore b before' id := by
  rcases h with ⟨d, hd, hdef⟩ | h
  · exact .inl ⟨d, hs d hd, hdef⟩
  · exact .inr h

end

/-! ### Instructions in their blocks -/

section

variable {g : Graph} {b : BlockId}

theorem mem_code {i : Instr} : i ∈ g.code b ↔ ∃ id ∈ g.listing b, g.instrs[id.index]? = some i :=
  List.mem_filterMap

theorem lt_of_mem_code {i : Instr} (h : i ∈ g.code b) : b.index < g.blocks.size := by
  obtain ⟨id, hid, -⟩ := mem_code.mp h
  by_contra hlt
  rw [listing, Array.getD_eq_getD_getElem?, Array.getElem?_eq_none (by omega)] at hid
  simp at hid

namespace Listed

variable (h : g.Listed)

include h

theorem id_of_getElem? {id : InstrId} {i : Instr} (hi : g.instrs[id.index]? = some i) :
    i.id = id := h.numbered id.index i hi

theorem mem_code_iff {i : Instr} :
    i ∈ g.code b ↔ i.id ∈ g.listing b ∧ g.instrs[i.id.index]? = some i := by
  rw [mem_code]
  constructor
  · rintro ⟨id, hid, hi⟩
    have he := h.id_of_getElem? hi
    subst he
    exact ⟨hid, hi⟩
  · rintro ⟨hid, hi⟩
    exact ⟨i.id, hid, hi⟩

theorem mem_code_of_getElem? {k : Nat} {i : Instr} (hi : g.instrs[k]? = some i) :
    i ∈ g.code i.block := by
  have hid := h.numbered k i hi
  rw [h.mem_code_iff]
  refine ⟨h.placed k i hi, ?_⟩
  rw [hid]
  exact hi

theorem block_of_mem {i : Instr} (hi : i ∈ g.code b) : i.block = b := by
  obtain ⟨hid, hget⟩ := h.mem_code_iff.mp hi
  obtain ⟨i', hget', hb⟩ := h.found b i.id hid
  cases hget.symm.trans hget'
  exact hb

/-- The numbers of the instructions of a block are its listing. -/
theorem code_ids (b : BlockId) : (g.code b).map (·.id) = g.listing b := by
  have general : ∀ ids : List InstrId, (∀ id ∈ ids, ∃ i, g.instrs[id.index]? = some i) →
      (ids.filterMap fun id => g.instrs[id.index]?).map (·.id) = ids := by
    intro ids
    induction ids with
    | nil => simp
    | cons id rest ih =>
      intro hall
      obtain ⟨i, hi⟩ := hall id (by simp)
      rw [List.filterMap_cons, hi]
      simp only [List.map_cons]
      rw [ih fun id hid => hall id (by simp [hid]), h.id_of_getElem? hi]
  exact general _ fun id hid => (h.found b id hid).imp fun _ hi => hi.1

theorem code_nodup (b : BlockId) : ((g.code b).map (·.id)).Nodup := by
  rw [h.code_ids]
  exact h.once b

/-- Instructions with the same number are the same. -/
theorem eq_of_id {b' : BlockId} {i i' : Instr} (hi : i ∈ g.code b) (hi' : i' ∈ g.code b')
    (hid : i.id = i'.id) : i = i' ∧ b = b' := by
  have hget := (h.mem_code_iff.mp hi).2
  have hget' := (h.mem_code_iff.mp hi').2
  rw [hid] at hget
  cases hget.symm.trans hget'
  exact ⟨rfl, (h.block_of_mem hi).symm.trans (h.block_of_mem hi')⟩

end Listed

end

end Graph
end ScriptEngine
