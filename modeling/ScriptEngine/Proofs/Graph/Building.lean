import ScriptEngine.Proofs.Graph.Sketch
import ScriptEngine.Proofs.State

/-!
Building graphs block by block. What a step does to the code and the edges of blocks is said once;
graphs under construction stay listed.
-/

namespace ScriptEngine

namespace Graph

open Meaning

/-- The graph after the edges of a block were set. -/
def linked (g : Graph) (b : BlockId) (next : List BlockId) : Graph :=
  { g with blocks := g.blocks.modify b.index ({ · with successors := next }) }

variable {g : Graph} {b b' : BlockId} {op : Op} {ins : List Input} {next : List BlockId}

@[simp] theorem addBlock_instrs : g.addBlock.2.instrs = g.instrs := rfl

@[simp] theorem addBlock_blocks_size : g.addBlock.2.blocks.size = g.blocks.size + 1 := Array.size_push _

@[simp] theorem linked_instrs : (g.linked b next).instrs = g.instrs := rfl

@[simp] theorem linked_blocks_size : (g.linked b next).blocks.size = g.blocks.size := Array.size_modify

theorem addBlock_getD (k : Nat) : g.addBlock.2.blocks.getD k {} = g.blocks.getD k {} := by
  simp only [addBlock, Array.getD_eq_getD_getElem?, Array.getElem?_push]
  split
  · rename_i h
    rw [h, Array.getElem?_eq_none le_rfl]
    rfl
  · rfl

@[simp] theorem listing_addBlock : g.addBlock.2.listing b = g.listing b := by rw [listing, addBlock_getD, listing]

@[simp] theorem successors_addBlock : g.addBlock.2.successors b = g.successors b := by
  rw [successors, addBlock_getD, successors]

@[simp] theorem code_addBlock : g.addBlock.2.code b = g.code b := by
  rw [code, listing_addBlock, addBlock_instrs, code]

@[simp] theorem listing_linked : (g.linked b next).listing b' = g.listing b' := by
  simp only [listing, linked, Array.getD_eq_getD_getElem?, Array.getElem?_modify]
  split
  · cases g.blocks[b'.index]? <;> rfl
  · rfl

@[simp] theorem code_linked : (g.linked b next).code b' = g.code b' := by
  rw [code, listing_linked, linked_instrs, code]

theorem successors_linked_self (h : b.index < g.blocks.size) : (g.linked b next).successors b = next := by
  simp only [successors, linked, Array.getD_eq_getD_getElem?, Array.getElem?_modify, if_pos,
    Array.getElem?_eq_getElem h, Option.map_some, Option.getD_some]

theorem successors_linked_other (h : b' ≠ b) : (g.linked b next).successors b' = g.successors b' := by
  have hne : b.index ≠ b'.index := fun heq => h (by cases b; cases b'; simpa using heq.symm)
  simp only [successors, linked, Array.getD_eq_getD_getElem?, Array.getElem?_modify, if_neg hne]

/-- Only the instructions and the lists of the blocks matter. -/
theorem Listed.congr {g' : Graph} (hl : g.Listed) (hinstrs : g'.instrs = g.instrs)
    (hlisting : ∀ b, g'.listing b = g.listing b) : g'.Listed where
  numbered k i hi := hl.numbered k i (hinstrs ▸ hi)
  found b id hid := by
    rw [hinstrs]
    exact hl.found b id (hlisting b ▸ hid)
  once b := by
    rw [hlisting]
    exact hl.once b
  placed k i hi := by
    rw [hlisting]
    exact hl.placed k i (hinstrs ▸ hi)

theorem Listed.addBlock (h : g.Listed) : g.addBlock.2.Listed := h.congr rfl fun _ => listing_addBlock

theorem Listed.linked (h : g.Listed) : (g.linked b next).Listed := h.congr rfl fun _ => listing_linked

theorem code_of_le (h : g.blocks.size ≤ b.index) : g.code b = [] := by
  rw [List.eq_nil_iff_forall_not_mem]
  exact fun i hi => absurd (lt_of_mem_code hi) (by omega)

/-- Only the numbers and the blocks that exist need to be looked at. -/
theorem listed_iff : g.Listed ↔
    (∀ k < g.instrs.size, ∀ i ∈ g.instrs[k]?, i.id = ⟨k⟩ ∧ i.id ∈ g.listing i.block) ∧
    ∀ k < g.blocks.size, (g.listing ⟨k⟩).Nodup ∧
      ∀ id ∈ g.listing ⟨k⟩, ∃ i ∈ g.instrs[id.index]?, i.block = ⟨k⟩ := by
  constructor
  · exact fun h => ⟨fun k _ i hi => ⟨h.numbered k i hi, h.placed k i hi⟩, fun k _ => ⟨h.once _, h.found _⟩⟩
  · rintro ⟨hinstrs, hblocks⟩
    have hlt : ∀ {k : Nat} {i : Instr}, g.instrs[k]? = some i → k < g.instrs.size := fun h =>
      (Array.getElem?_eq_some_iff.mp h).1
    have hnone : ∀ {b : BlockId}, ¬ b.index < g.blocks.size → g.listing b = [] := fun h => by
      rw [listing, Array.getD_eq_getD_getElem?, Array.getElem?_eq_none (by omega)]
      rfl
    refine ⟨fun k i hi => (hinstrs k (hlt hi) i hi).1, fun b id hid => ?_, fun b => ?_,
      fun k i hi => (hinstrs k (hlt hi) i hi).2⟩
    · by_cases hb : b.index < g.blocks.size
      · exact (hblocks _ hb).2 id hid
      · simp [hnone hb] at hid
    · by_cases hb : b.index < g.blocks.size
      · exact (hblocks _ hb).1
      · simp [hnone hb]

instance : Decidable g.Listed := decidable_of_iff' _ listed_iff

theorem listed_start (name : String) : (Builder.start name).graph.Listed where
  numbered k i hi := by simp [Builder.start, Graph.addBlock] at hi
  found b id hid := by
    rw [Builder.start, listing_addBlock] at hid
    simp [listing] at hid
  once b := by
    rw [Builder.start, listing_addBlock]
    simp [listing]
  placed k i hi := by simp [Builder.start, Graph.addBlock] at hi

end Graph

namespace Builder

open State

/-- The steps succeed, with an answer and a builder of a certain kind. -/
def Makes {α : Type} (m : BuildM α) (b : Builder) (Q : α → Builder → Prop) : Prop :=
  ∃ a b', m b = .ok a b' ∧ Q a b'

variable {α β : Type} {g : Graph} {c : BlockId}

theorem Makes.bind {m : BuildM α} {f : α → BuildM β} {b : Builder} {P : α → Builder → Prop}
    {Q : β → Builder → Prop} (h : Makes m b P) (hf : ∀ a b', P a b' → Makes (f a) b' Q) :
    Makes (m >>= f) b Q := by
  obtain ⟨a, b', hm, hP⟩ := h
  obtain ⟨a', b'', hok, hQ⟩ := hf a b' hP
  exact ⟨a', b'', bind_eq_ok.mpr ⟨a, b', hm, hok⟩, hQ⟩

theorem Makes.pure {a : α} {b : Builder} {Q : α → Builder → Prop} (h : Q a b) : Makes (Pure.pure a) b Q :=
  ⟨a, b, rfl, h⟩

theorem Makes.mono {m : BuildM α} {b : Builder} {P Q : α → Builder → Prop} (h : Makes m b P)
    (hPQ : ∀ a b', P a b' → Q a b') : Makes m b Q := by
  obtain ⟨a, b', hm, hP⟩ := h
  exact ⟨a, b', hm, hPQ a b' hP⟩

/-- One step of which the outcome is known. -/
theorem Makes.step {m : BuildM α} {f : α → BuildM β} {b b' : Builder} {a : α} {Q : β → Builder → Prop}
    (h : m b = .ok a b') (hf : Makes (f a) b' Q) : Makes (m >>= f) b Q := by
  obtain ⟨a', b'', hok, hQ⟩ := hf
  exact ⟨a', b'', bind_eq_ok.mpr ⟨a, b', h, hok⟩, hQ⟩

theorem newBlock_apply : newBlock ⟨g, c⟩ = .ok ⟨g.blocks.size⟩ ⟨g.addBlock.2, c⟩ := rfl

theorem switchTo_apply (t : BlockId) : switchTo t ⟨g, c⟩ = .ok () ⟨g, t⟩ := rfl

theorem emit_apply (op : PrimOp) (ins : List Input) (hc : c.index < g.blocks.size) :
    emit op ins ⟨g, c⟩ = .ok ⟨g.instrs.size⟩ ⟨Meaning.appended g c (.prim op) ins, c⟩ := by
  have happend : g.append c (.prim op) ins = .ok (⟨g.instrs.size⟩, Meaning.appended g c (.prim op) ins) := by
    rw [Graph.append, Graph.block, Array.getElem?_eq_getElem hc]
    rfl
  change onGraph (fun g => g.append c (.prim op) ins) ⟨g, c⟩ = _
  rw [onGraph, happend]

theorem discard_emit_apply (op : PrimOp) (ins : List Input) (hc : c.index < g.blocks.size) :
    discard (emit op ins) ⟨g, c⟩ = .ok () ⟨Meaning.appended g c (.prim op) ins, c⟩ :=
  discard_eq_ok.mpr ⟨_, emit_apply op ins hc⟩

theorem setSuccessors_apply (next : List BlockId) (hc : c.index < g.blocks.size) :
    setSuccessors c next ⟨g, c⟩ = .ok () ⟨g.linked c next, c⟩ := by
  have hset : g.setSuccessors c next = .ok (g.linked c next) := by
    rw [Graph.setSuccessors, Graph.block, Array.getElem?_eq_getElem hc]
    rfl
  rw [setSuccessors, onGraph, hset]
  rfl

theorem jump_apply (t : BlockId) (hc : c.index < g.blocks.size) :
    jump t ⟨g, c⟩ = .ok () ⟨g.linked c [t], c⟩ := setSuccessors_apply [t] hc

theorem branch_apply (yes no : BlockId) (hc : c.index < g.blocks.size) :
    branch yes no ⟨g, c⟩ = .ok () ⟨g.linked c [yes, no], c⟩ := setSuccessors_apply [yes, no] hc

end Builder
end ScriptEngine
