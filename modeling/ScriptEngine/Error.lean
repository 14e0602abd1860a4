import ScriptEngine.Graph.Basic
import ScriptEngine.Heap.Error

/-!
What can go wrong between source text and a result: in the source, while compiling, and while
compiled code runs.
-/

namespace ScriptEngine

/-- Why source text has no instruction graphs. -/
inductive SourceError where
  /-- The text is not a script. -/
  | parse
  /-- The script uses something outside the supported language. -/
  | unsupported (feature : String)
  | invalidAssignmentTarget
  | graph (error : GraphError)
deriving DecidableEq, Inhabited

def SourceError.message : SourceError → String
  | parse => "Parse error"
  | unsupported feature => "Unsupported: " ++ feature
  | invalidAssignmentTarget => "Invalid assignment target"
  | graph error => "Internal error: " ++ error.message

/-- Why something was not compiled. -/
inductive CompileError where
  /-- The machine code back end refuses a function: a value is used where it need not be defined. -/
  | backend
  | source (error : SourceError)
  | heap (error : HeapError)
  | graph (error : GraphError)
  | unknownStub (name : String)
  | unknownCallback (name : String)
  | unknownFunction (index : Nat)
  /-- An operation reached a stage that cannot handle it. -/
  | internal (operation reason : String)
deriving DecidableEq, Inhabited

def CompileError.message : CompileError → String
  | backend => "function refused by the back end"
  | source error => error.message
  | heap error => "heap error: " ++ error.message
  | graph error => "ir error: " ++ error.message
  | unknownStub name => "unknown stub: " ++ name
  | unknownCallback name => "unknown runtime callback: " ++ name
  | unknownFunction index => s!"unknown function #{index}"
  | internal operation reason => "internal error in " ++ operation ++ ": " ++ reason

/-- Why a call gave no result. -/
inductive RunError where
  /-- A value that cannot be called was called. -/
  | type (message : String)
  | heap (error : HeapError)
  | compile (error : CompileError)
  /-- Calls are nested too deeply, or the code ran too long. -/
  | exhausted
  /-- Control went to a word that is no entry of machine code. -/
  | wildJump
  /-- A debug trap ended the run. -/
  | trapped
deriving DecidableEq, Inhabited

def RunError.message : RunError → String
  | type message => "TypeError: " ++ message
  | heap error => "heap error: " ++ error.message
  | compile error => error.message
  | exhausted => "call stack exhausted"
  | wildJump => "jump outside compiled code"
  | trapped => "debug trap"

end ScriptEngine
