import ScriptEngine.Graph.Basic

/-!
Text dumps of graphs: a head line, then each block with its instructions and its successors.
-/

namespace ScriptEngine

def Input.render : Input → String
  | value id => id.name
  | const c => c.render

/-- One instruction; those that define a value start with its number. -/
def Instr.render (i : Instr) : String :=
  (if i.op.info.output then i.id.name ++ " = " else "") ++ i.op.name ++
    (if i.inputs.isEmpty then "" else " " ++ ", ".intercalate (i.inputs.map Input.render))

namespace Graph

/-- Lines of a block. -/
def blockLines (g : Graph) (index : Nat) (b : Block) : List String :=
  let head := (BlockId.mk index).name ++ ":"
  let body := b.instrs.map fun id =>
    match g.instr id with
    | .ok i => "  " ++ i.render
    | .error _ => "  <missing " ++ id.name ++ ">"
  let tail :=
    if b.successors.isEmpty then []
    else ["  -> " ++ ", ".intercalate (b.successors.map BlockId.name)]
  head :: body ++ tail

def dump (g : Graph) : String :=
  let head := "fn " ++ g.name ++ "(" ++ toString g.params ++ " params)"
  let lines := head :: (g.blocks.toList.zipIdx.flatMap fun (b, i) => g.blockLines i b)
  String.join (lines.map (· ++ "\n"))

end Graph
end ScriptEngine
