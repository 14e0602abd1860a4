import ScriptEngine.Graph.Builder
import ScriptEngine.Layout

/-!
Pieces that the bodies of stubs share.
-/

namespace ScriptEngine.Stub

export Builder (raw emit newBlock switchTo jump branch ret literal read write stubArg arg isSmi
  comparePointer compareSmi testBits callStub callHost alloc)

/-- A small integer as an input. -/
def smi (n : Nat) : Input := .const (.smi n)

/-- Mask that selects a flag in the word with the flags of a shape. -/
def flagMask (flag : ShapeFlags) : Int := 2 * flag.bits

/-- Return a constant. -/
def retLiteral (c : Const) : BuildM Unit := do
  let v ← literal c
  discard (ret v)

/-- Return what a host callback answers. -/
def retHost (name : String) (args : List Input) : BuildM Unit := do
  let v ← callHost name args
  discard (ret v)

end ScriptEngine.Stub
