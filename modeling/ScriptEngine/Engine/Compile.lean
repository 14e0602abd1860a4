import ScriptEngine.Engine.Emission
import ScriptEngine.Graph.Dump

/-!
Compilation of units: scripts, stubs and inline caches all go the same way, from a graph through
lowering and code generation to a code object. Constants of one unit may make others necessary,
which are then compiled in between.
-/

namespace ScriptEngine.Engine

/-- How a graph is compiled, given the code of the functions that it refers to. -/
abbrev UnitCompiler := Graph → UnitKind → Array (Option Word) → CompileM Word

/-- Callbacks of the host, in the order of their numbers. -/
def callbackNames : List String :=
  ["loadProperty", "storeProperty", "deleteProperty", "getPropertySlot", "allocTagged",
    "coerce/boolean", "unary/-", "binary/+", "binary/-", "binary/*", "binary/<", "binary/<=",
    "binary/===", "binary/!==", "binary/instanceof", "typeError", "log"]

def callbackId (name : String) : Except CompileError Nat :=
  match callbackNames.idxOf? name with
  | some id => .ok id
  | none => .error (.unknownCallback name)

def liftExcept {ε α : Type} : Except ε α → EStateM ε Engine α
  | .ok a => return a
  | .error e => throw e

def buildGraph (graph : Except GraphError Graph) : CompileM Graph :=
  match graph with
  | .ok g => return g
  | .error e => throw (.graph e)

/-! ### Stubs and inline caches -/

/-- Compile the source of a stub and wrap it in a function. -/
def buildStub (compile : UnitCompiler) (name : String) (source : StubSource) : CompileM Stub :=
  withScope .persistent do
    let code ← match source with
      | .host => onHeap .heap (Heap.allocCode hostEntry 0 { name })
      | .body build => do compile (← buildGraph (Builder.build name build)) .stub #[]
    let function ← onHeap .heap (Heap.allocBuiltinFunction code)
    return { function, code }

/-- A stub, which is compiled when it is first asked for. -/
def stub (compile : UnitCompiler) (name : String) : CompileM Stub := do
  match (← get).stubs.compiled? name with
  | some stub => return stub
  | none =>
    let source ← liftExcept ((← get).stubs.source name)
    let stubs ← liftExcept ((← get).stubs.begin name)
    modify fun e => { e with stubs }
    fun e =>
      match (buildStub compile name source).run e with
      | .ok stub e => .ok stub { e with stubs := e.stubs.finish name (some stub) }
      | .error err e => .error err { e with stubs := e.stubs.finish name none }

/-- A new inline cache without probes; the answer is its function. -/
def newCache (compile : UnitCompiler) (kind : CacheKind) : CompileM Word :=
  withScope .persistent do
    let code ← compile (← buildGraph (InlineCache.dispatchGraph kind [])) .cache #[]
    let function ← onHeap .heap (Heap.allocBuiltinFunction code)
    modify fun e => { e with caches := e.caches.insert function { kind, code } }
    return function

/-! ### Units -/

/-- Word of a constant. -/
def resolve (compile : UnitCompiler) (nested : Array (Option Word)) (c : Const) : CompileM Word := do
  match c with
  | .raw n => return .ofInt n
  | .smi n =>
    match Word.ofSmi? n with
    | some w => return w
    | none => onHeap .heap (Heap.number (.ofInt n))
  | .number n => onHeap .heap (Heap.number n)
  | .text s => onHeap .heap (Heap.string s)
  | .bool b => return (← get).heap.boolean b
  | .undefined => return (← get).heap.undefined
  | .null => return (← get).heap.null
  | .hole => return (← get).heap.hole
  | .heap value | .weak value => return value
  | .stub name => return (← stub compile name).function
  | .callback name => return .smi (← liftExcept (callbackId name))
  | .function index =>
    match nested[index]?.join with
    | some code => return code
    | none => throw (.unknownFunction index)
  | .shape kind => return (← get).heap.rootShape kind
  | .cache kind => newCache compile kind
  | .cond _ | .binary _ | .unary _ =>
    throw (.internal "literal" ("selector " ++ c.render ++ " cannot be materialised"))

/-- Dump a graph if the stage is traced. -/
def traceDump (traced : Bool) (graph : Graph) (kind : UnitKind) (stage : String) : CompileM Unit :=
  if traced then emitEvent (.dump graph.name kind stage (some graph.dump)) else pure ()

/-- Lower a graph and report the passes. -/
def lowerGraph (graph : Graph) : CompileM Graph := do
  let outcome := Lowering.lower graph
  outcome.reports.forM fun report => emitEvent (.pass report)
  match outcome.error with
  | some e => throw e
  | none => return outcome.graph

/-- Keep a program; the answer is its entry. -/
def defineRoutine (program : Program) : CompileM Nat := do
  if !program.isValid then throw .backend
  let entry := (← get).routines.size
  modify fun e => { e with routines := e.routines.push (.program program) }
  return entry

/-- Compile a unit, with compilations nested in each other at most `nesting` times. -/
def compileNested : Nat → UnitCompiler
  | 0, _, _, _ => throw (.internal "compile" "compilations nested too deeply")
  | nesting + 1, graph, kind, nested => do
    let outer := (← get).contexts.current?.map (·.unit)
    withContext { unit := graph.name, kind } fun depth => do
      let trace := (← get).config.trace
      traceDump trace.cfg graph kind "cfg"
      traceDump trace.opt graph kind "opt"
      let graph ← lowerGraph graph
      traceDump trace.lowered graph kind "lowered"
      let resolve := resolve (compileNested nesting) nested
      let (program, record) ←
        emitProgram { graph, resolve, trapOnEntry := (← get).config.trapOnEntry }
      if trace.machine then emitEvent (.dump graph.name kind "clif" none)
      let entry ← defineRoutine program
      emitEvent (.compiled graph.name kind depth outer graph.instrs.size)
      onHeap .heap (Heap.allocCode entry 0 record)

/-- A bound on the nesting of compilations. A unit may need an inline cache, which needs a stub;
stubs in progress are all different. -/
def maxNesting (e : Engine) : Nat := 2 * e.stubs.declared.size + 4

/-- Compile a unit to a code object. -/
def compileUnit (graph : Graph) (kind : UnitKind) (nested : Array (Option Word)) : CompileM Word := do
  compileNested (maxNesting (← get)) graph kind nested

/-- A stub by name. -/
def getStub (name : String) : CompileM Stub := do stub (compileNested (maxNesting (← get))) name

/-- A new inline cache. -/
def createCache (kind : CacheKind) : CompileM Word := do
  newCache (compileNested (maxNesting (← get))) kind

/-- Compile the graphs of a script, the last one first, so that the functions in a function are
there before it. The answer is the code of the first. -/
def compileScript (graphs : Array Graph) : CompileM Word :=
  withScope .temporary do
    let start : Array (Option Word) := Array.replicate graphs.size none
    let codes ← (graphs.toList.zipIdx.reverse).foldlM (fun codes (graph, index) => do
      let code ← compileUnit graph .function codes
      return codes.setIfInBounds index (some code)) start
    match codes[0]?.join with
    | some code => return code
    | none => throw (.internal "compile" "script produced no graphs")

end ScriptEngine.Engine
