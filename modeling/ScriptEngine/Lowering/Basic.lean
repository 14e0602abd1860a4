import ScriptEngine.Error
import ScriptEngine.Graph.Builder

/-!
Lowering steps. A pass walks over a block as it was when the pass reached it, inserts
instructions and replaces others in place, so that every reference to a replaced instruction
means its new result.
-/

namespace ScriptEngine

/-- Changes of a graph that can fail; a failure keeps the changes before it. -/
abbrev LowerM := EStateM CompileError Graph

namespace Lowering

export Builder (raw)

/-- A fact about the graph, or the reason why it does not hold. -/
def ask {α : Type} (question : Except GraphError α) : LowerM α :=
  match question with
  | .ok a => return a
  | .error e => throw (.graph e)

/-- A pure step on the graph. -/
def change {α : Type} (step : Graph → Except GraphError (α × Graph)) : LowerM α := fun g =>
  match step g with
  | .ok (a, g) => .ok a g
  | .error e => .error (.graph e) g

def insertBefore (anchor : InstrId) (op : PrimOp) (inputs : List Input) : LowerM InstrId :=
  change fun g => g.insertBefore anchor (.prim op) inputs

def replace (id : InstrId) (op : Op) (inputs : List Input) : LowerM Unit :=
  change fun g => return ((), ← g.replace id op inputs)

def instrOf (id : InstrId) : LowerM Instr := do ask ((← get).instr id)

/-- Insert a constant before an instruction. -/
def literalBefore (anchor : InstrId) (c : Const) : LowerM InstrId :=
  insertBefore anchor .literal [.const c]

/-- Insert a push before an instruction. -/
def pushBefore (anchor : InstrId) (value : Input) : LowerM Unit :=
  discard (insertBefore anchor .push [value])

/-- Turn an instruction into a call of a stub. -/
def toStubCall (id : InstrId) (stub : String) (argc : Nat) : LowerM Unit :=
  replace id (.prim .callStub) [.const (.stub stub), raw argc]

/-- Apply a step to every instruction that the block has now. -/
def forBlock (block : BlockId) (step : Instr → LowerM Unit) : LowerM Unit := do
  let instrs := (← ask ((← get).block block)).instrs
  instrs.forM fun id => do step (← instrOf id)

end Lowering
end ScriptEngine
