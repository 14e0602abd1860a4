import ScriptEngine.Word

/-!
What can go wrong in the heap.
-/

namespace ScriptEngine

inductive HeapError where
  /-- No room in the address space for a page of this size. -/
  | pageAllocation (size : Nat)
  /-- No page can have this size. -/
  | invalidLayout (size : Nat)
  /-- A value without property storage was used as an object. -/
  | notAnObject (value : Word)
  /-- A value that is no code object was used as one. -/
  | notCode (value : Word)
  /-- A scope was left that is not the innermost one. -/
  | scopeMismatch (expected actual : Nat)
deriving DecidableEq, Inhabited

def HeapError.message : HeapError → String
  | pageAllocation size => s!"failed to map a {size} byte page"
  | invalidLayout size => s!"invalid page layout for {size} bytes"
  | notAnObject value => "value 0x" ++ Word.hex value.toNat ++ " is not an object"
  | notCode value => "value 0x" ++ Word.hex value.toNat ++ " is not a code object"
  | scopeMismatch expected actual =>
    s!"scope {expected} released while scope {actual} is current"

end ScriptEngine
