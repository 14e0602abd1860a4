import ScriptEngine.Graph.Const
import ScriptEngine.Graph.Op

/-!
Instruction graphs, one per function. Instructions live in an arena and keep their number for
ever, so that an instruction can be replaced in place and all references to it then mean the
new result. Blocks list instruction numbers in order.
-/

namespace ScriptEngine

structure InstrId where
  index : Nat
deriving DecidableEq, Inhabited

instance : Ord InstrId := ⟨compareOn InstrId.index⟩

instance : Std.TransOrd InstrId := inferInstanceAs (Std.TransCmp (compareOn InstrId.index))

instance : Std.LawfulEqOrd InstrId where
  eq_of_compare {a b} h := by
    have hindex : a.index = b.index := Nat.compare_eq_eq.mp h
    cases a
    cases b
    simpa using hindex

structure BlockId where
  index : Nat
deriving DecidableEq, Inhabited

def InstrId.name (id : InstrId) : String := "i" ++ toString id.index

def BlockId.name (id : BlockId) : String := "b" ++ toString id.index

/-- What an instruction works on. -/
inductive Input where
  /-- The result of an instruction. -/
  | value (id : InstrId)
  | const (c : Const)
deriving DecidableEq, Inhabited

instance : Coe InstrId Input := ⟨.value⟩
instance : Coe Const Input := ⟨.const⟩

structure Instr where
  id : InstrId
  op : Op
  inputs : List Input
  block : BlockId
deriving DecidableEq, Inhabited

/-- A straight run of instructions. With two successors, the first is taken if the condition
holds. -/
structure Block where
  instrs : List InstrId := []
  successors : List BlockId := []
deriving DecidableEq, Inhabited

structure Graph where
  name : String
  params : Nat := 0
  instrs : Array Instr := #[]
  blocks : Array Block := #[]
deriving Inhabited

inductive GraphError where
  | unknownInstr (id : InstrId)
  | unknownBlock (id : BlockId)
  /-- An instruction is not listed in the block that it names. -/
  | detached (id : InstrId)
  /-- An input is missing or of another kind. -/
  | missingInput (id : InstrId) (index : Nat)
deriving DecidableEq, Inhabited

def GraphError.message : GraphError → String
  | unknownInstr id => "unknown instruction " ++ id.name
  | unknownBlock id => "unknown block " ++ id.name
  | detached id => "instruction " ++ id.name ++ " is not in its block"
  | missingInput id index => "instruction " ++ id.name ++ " has no suitable input " ++ toString index

namespace Instr

def input (i : Instr) (index : Nat) : Except GraphError Input :=
  match i.inputs[index]? with
  | some input => .ok input
  | none => .error (.missingInput i.id index)

/-- An input that is the result of an instruction. -/
def valueInput (i : Instr) (index : Nat) : Except GraphError InstrId :=
  match i.inputs[index]? with
  | some (.value id) => .ok id
  | _ => .error (.missingInput i.id index)

/-- An input that is a constant. -/
def constInput (i : Instr) (index : Nat) : Except GraphError Const :=
  match i.inputs[index]? with
  | some (.const c) => .ok c
  | _ => .error (.missingInput i.id index)

/-- An input that is a bare machine word. -/
def rawInput (i : Instr) (index : Nat) : Except GraphError Int :=
  match i.inputs[index]? with
  | some (.const (.raw n)) => .ok n
  | _ => .error (.missingInput i.id index)

end Instr

namespace Graph

def block (g : Graph) (id : BlockId) : Except GraphError Block :=
  match g.blocks[id.index]? with
  | some block => .ok block
  | none => .error (.unknownBlock id)

def instr (g : Graph) (id : InstrId) : Except GraphError Instr :=
  match g.instrs[id.index]? with
  | some instr => .ok instr
  | none => .error (.unknownInstr id)

/-- Every block, the entry first. -/
def blockIds (g : Graph) : List BlockId := (List.range g.blocks.size).map BlockId.mk

def addBlock (g : Graph) : BlockId × Graph :=
  (⟨g.blocks.size⟩, { g with blocks := g.blocks.push {} })

def setSuccessors (g : Graph) (id : BlockId) (successors : List BlockId) :
    Except GraphError Graph := do
  let _ ← g.block id
  return { g with blocks := g.blocks.modify id.index ({ · with successors }) }

/-- Number that the next instruction gets. -/
def nextInstr (g : Graph) : InstrId := ⟨g.instrs.size⟩

/-- Create an instruction and let `place` put it into the list of its block. -/
def addInstr (g : Graph) (block : BlockId) (op : Op) (inputs : List Input)
    (place : InstrId → List InstrId → List InstrId) : InstrId × Graph :=
  let id := g.nextInstr
  (id, { g with
    instrs := g.instrs.push { id, op, inputs, block }
    blocks := g.blocks.modify block.index fun b => { b with instrs := place id b.instrs } })

/-- Add an instruction at the end of a block. -/
def append (g : Graph) (block : BlockId) (op : Op) (inputs : List Input) :
    Except GraphError (InstrId × Graph) := do
  let _ ← g.block block
  return g.addInstr block op inputs fun id instrs => instrs ++ [id]

/-- Put `id` in front of the first `anchor`. -/
def insertIn (anchor id : InstrId) : List InstrId → List InstrId
  | [] => []
  | i :: rest => if i = anchor then id :: i :: rest else i :: insertIn anchor id rest

/-- Add an instruction right before another one. -/
def insertBefore (g : Graph) (anchor : InstrId) (op : Op) (inputs : List Input) :
    Except GraphError (InstrId × Graph) := do
  let block := (← g.instr anchor).block
  if anchor ∈ (← g.block block).instrs then
    return g.addInstr block op inputs (insertIn anchor)
  else throw (.detached anchor)

/-- Replace an instruction in place; it keeps its number and its block. -/
def replace (g : Graph) (id : InstrId) (op : Op) (inputs : List Input) :
    Except GraphError Graph := do
  let _ ← g.instr id
  return { g with instrs := g.instrs.modify id.index ({ · with op, inputs }) }

/-- Parameters of a block, in order. -/
def phis (g : Graph) (id : BlockId) : Except GraphError (List InstrId) := do
  let instrs ← (← g.block id).instrs.mapM g.instr
  return (instrs.filter (·.op == .prim .phi)).map (·.id)

/-- The first instruction that lowering has not removed. -/
def firstUnlowered? (g : Graph) : Option Instr :=
  (g.blocks.toList.flatMap (·.instrs)).findSome? fun id =>
    g.instrs[id.index]?.filter (!·.op.isPrim)

end Graph
end ScriptEngine
