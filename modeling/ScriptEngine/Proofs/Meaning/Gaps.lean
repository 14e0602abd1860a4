import ScriptEngine.Construction
import ScriptEngine.Proofs.State

/-!
An array literal that leaves out all elements but the last, from its text to its graph. What is left out takes no
instruction, so the graph does not get longer with the array.
-/

namespace ScriptEngine

namespace Syntax

open Read

/-! ### From text to tree -/

section

variable {rules : Rules} {ctx : Context} {c c' : Cursor} {e : Expr}

end

/-- One element of an array literal. -/
def element (rules : Rules) (ctx : Context) : ReadM (Option Element) := do
  if ← atMark "]" then return none
  if ← eat "," then return some .hole
  let item ← rules.spreadOrItem ctx
  if !(← atMark "]") then expect ","
  return some item

section

variable {rules : Rules} {ctx : Context}

end

end Syntax

namespace Construction

open Syntax

/-! ### From tree to graph -/

end Construction
end ScriptEngine
