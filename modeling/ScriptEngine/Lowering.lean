import ScriptEngine.Lowering.Access
import ScriptEngine.Lowering.Calls
import ScriptEngine.Lowering.Values

/-!
Lowering of a graph: the passes in their order. Each pass covers every block before the next
one starts, and relies on what the earlier ones left.
-/

namespace ScriptEngine.Lowering

structure Pass where
  name : String
  run : BlockId → LowerM Unit

def passes : List Pass :=
  [⟨"globals", lowerGlobals⟩, ⟨"functions", lowerClosures⟩, ⟨"objects", lowerObjects⟩,
    ⟨"properties", lowerProperties⟩, ⟨"operators", lowerOperators⟩,
    ⟨"branches", lowerBranches⟩, ⟨"calls", lowerCalls⟩]

/-- A pass that is done, and the number of instructions after it. -/
structure PassReport where
  pass : String
  function : String
  instrs : Nat
deriving DecidableEq, Inhabited

/-- Outcome of lowering: the graph as far as it got, the passes that are done, and what stopped
it. -/
structure Outcome where
  graph : Graph
  reports : List PassReport
  error : Option CompileError

/-- Apply passes to the blocks that the graph had at the start. -/
def runPasses (blocks : List BlockId) : List Pass → Graph → List PassReport → Outcome
  | [], graph, reports => ⟨graph, reports, none⟩
  | pass :: rest, graph, reports =>
    match (blocks.forM pass.run).run graph with
    | .ok _ graph =>
      runPasses blocks rest graph (reports ++ [⟨pass.name, graph.name, graph.instrs.size⟩])
    | .error e graph => ⟨graph, reports, some e⟩

/-- Turn every script operation of a graph into primitive ones. -/
def lower (graph : Graph) : Outcome :=
  let outcome := runPasses graph.blockIds passes graph []
  match outcome.error with
  | some _ => outcome
  | none =>
    match outcome.graph.firstUnlowered? with
    | some i => { outcome with error := some (.internal i.op.name (i.id.name ++ " survived lowering")) }
    | none => outcome

end ScriptEngine.Lowering
