import ScriptEngine.Graph.Basic

/-!
Order of blocks for code generation: those reachable from the entry, in reverse postorder, so
that every block comes after the blocks that dominate it.
-/

namespace ScriptEngine.Graph

/-- Depth-first search. The stack holds blocks with the successors that are still to be seen;
finished blocks are put in front of the result. -/
def search (g : Graph) : Nat → List (BlockId × List BlockId) → List BlockId → List BlockId →
    Except GraphError (List BlockId)
  | 0, _, _, done => .ok done
  | _, [], _, done => .ok done
  | fuel + 1, (block, []) :: stack, visited, done => g.search fuel stack visited (block :: done)
  | fuel + 1, (block, next :: rest) :: stack, visited, done => do
    if next ∈ visited then g.search fuel ((block, rest) :: stack) visited done
    else
      let successors := (← g.block next).successors
      g.search fuel ((next, successors) :: (block, rest) :: stack) (next :: visited) done

/-- Reachable blocks, the entry first. Each step of the search uses up a block or an edge. -/
def reversePostorder (g : Graph) : Except GraphError (List BlockId) := do
  let entry : BlockId := ⟨0⟩
  let edges := g.blocks.foldl (fun n b => n + b.successors.length) 0
  g.search (g.blocks.size + edges + 1) [(entry, (← g.block entry).successors)] [entry] []

end ScriptEngine.Graph
