import ScriptEngine.Construction
import ScriptEngine.Engine.Machine

/-!
An engine as its users see it: make one, compile source text, call functions, and look at values
and globals.
-/

namespace ScriptEngine.Engine

/-- Compile the functions that every engine has, and give `log` to scripts. -/
def installBuiltins : CompileM Unit := do
  discard (getStub "noop")
  let log ← getStub "log"
  let key ← onHeap .heap (Heap.string "log")
  onHeap .heap (Heap.setProperty (← get).global key log.function)

/-- A new engine, with an empty global object but for the builtin functions. -/
def create (config : Config) : Except CompileError Engine := do
  let heap ← match Heap.create config.heap with
    | .ok heap => pure heap
    | .error e => throw (.heap e)
  let start : CompileM Unit := do
    let global ← onHeap .heap Heap.newGlobal
    onHeap .heap (Heap.root global)
    modify ({ · with global })
    installBuiltins
  match start.run { config, heap, stubs := StubLibrary.standard } with
  | .ok _ e => return e
  | .error e _ => throw e

/-- Compile a script to a function that stays alive. -/
def compile (source : String) : CompileM Word := do
  match Construction.construct source with
  | .error e => throw (.source e)
  | .ok graphs =>
    let code ← compileScript graphs.toArray
    let function ← onHeap .heap (Heap.allocFunction code)
    onHeap .heap (Heap.root function)
    return function

/-- Call a function on the global object. -/
def call (function : Word) (args : List Word) : RunM Word := do
  invoke function (← get).global args

/-- Compile a script and run it. -/
def eval (source : String) : RunM Word := do
  call (← compiling (compile source)) []

/-- Value of a global. -/
def globalValue (name : String) : CompileM Word :=
  withScope .temporary do
    let key ← onHeap .heap (Heap.string name)
    onHeap .heap (Heap.getProperty (← get).global key)

/-- A function for a graph, given the code of the functions that the graph refers to. -/
def functionOfGraph (graph : Graph) (kind : UnitKind) (nested : Array (Option Word)) :
    CompileM Word := do
  let code ← compileUnit graph kind nested
  onHeap .heap (Heap.allocBuiltinFunction code)

def isFunction (e : Engine) (value : Word) : Bool := e.heap.isFunction value

/-- Text of a value, as `log` writes it. -/
def display (e : Engine) (value : Word) : String := e.heap.display value

/-- A short description. -/
def describe (e : Engine) : String :=
  "Runtime \x7b stubs: " ++ toString e.stubs.compiled.size ++ ", ics: " ++
    toString e.caches.size ++ " \x7d"

end ScriptEngine.Engine
