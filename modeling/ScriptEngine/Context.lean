/-!
Compilations in progress. Compiling one unit may need another, so contexts form a stack; leaving
a context restores the one around it.
-/

namespace ScriptEngine

/-- What is being compiled. -/
inductive UnitKind where
  /-- A script or a function of one. -/
  | function
  | stub
  /-- Dispatch code of an inline cache. -/
  | cache
deriving DecidableEq, Inhabited

def UnitKind.name : UnitKind → String
  | function => "function"
  | stub => "stub"
  | cache => "ic"

structure CompileContext where
  unit : String
  kind : UnitKind
deriving DecidableEq, Inhabited

/-- Contexts, innermost first. -/
structure ContextStack where
  frames : List CompileContext := []
deriving DecidableEq, Inhabited

namespace ContextStack

def depth (s : ContextStack) : Nat := s.frames.length

def current? (s : ContextStack) : Option CompileContext := s.frames.head?

/-- Push a context; it is left by the depth that it then has. -/
def enter (s : ContextStack) (context : CompileContext) : Nat × ContextStack :=
  (s.depth + 1, ⟨context :: s.frames⟩)

/-- Leave a context and all inside it. The flag says whether it was the innermost one. -/
def leave (s : ContextStack) (depth : Nat) : Bool × ContextStack :=
  (s.depth == depth, ⟨s.frames.drop (s.depth - (depth - 1))⟩)

end ContextStack
end ScriptEngine
