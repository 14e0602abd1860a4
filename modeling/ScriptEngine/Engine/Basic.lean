import ScriptEngine.Config
import ScriptEngine.Context
import ScriptEngine.Heap.Objects
import ScriptEngine.InlineCache
import ScriptEngine.Lowering
import ScriptEngine.Program
import ScriptEngine.Stub.Library

/-!
State of an engine: the heap, compiled code, stubs, inline caches, and what the outside can
observe of a run. Compilation runs in `CompileM` and execution in `RunM`; in both a failure
keeps the effects before it.
-/

namespace ScriptEngine

/-- Something worth telling, in the order in which it happened. -/
inductive Event where
  | warning (message : String)
  | failure (message : String) (detail : Option String)
  /-- Dump of a unit after a stage; the last stage has no text. -/
  | dump (unit : String) (kind : UnitKind) (stage : String) (text : Option String)
  | compiled (unit : String) (kind : UnitKind) (depth : Nat) (outer : Option String) (instrs : Nat)
  | callback (name : String) (argc : Nat)
  | pass (report : Lowering.PassReport)
deriving DecidableEq, Inhabited

/-- What an entry of machine code leads to. -/
inductive Routine where
  /-- The host, which picks the callback by the first argument. -/
  | host
  | program (p : Program)
deriving Inhabited

structure Engine where
  config : Config := {}
  heap : Heap := {}
  stubs : StubLibrary := {}
  /-- Inline caches by their functions. -/
  caches : Std.TreeMap Word InlineCache := ∅
  contexts : ContextStack := {}
  /-- Machine code by entry. -/
  routines : Array Routine := #[.host]
  /-- The first error of the call in progress. -/
  pending : Option RunError := none
  /-- The global object. -/
  global : Word := default
  /-- Whether `log` can still write. -/
  outputOpen : Bool := true
  /-- What `log` has written. -/
  output : String := ""
  /-- Debug traps executed. -/
  traps : Nat := 0
  events : Array Event := #[]
deriving Inhabited

/-- Entry of the routine that leads to the host. -/
def Engine.hostEntry : Nat := 0

abbrev CompileM := EStateM CompileError Engine

abbrev RunM := EStateM RunError Engine

namespace Engine

/-- A heap operation within the engine. The heap is taken out meanwhile, so that it can be updated
in place. -/
def onHeap {ε α : Type} (wrap : HeapError → ε) (act : HeapM α) : EStateM ε Engine α := fun e =>
  let heap := e.heap
  let e := { e with heap := {} }
  match act.run heap with
  | .ok a heap => .ok a { e with heap }
  | .error err heap => .error (wrap err) { e with heap }

/-- A question about the heap. -/
def askHeap {ε α : Type} (wrap : HeapError → ε) (question : Heap → Except HeapError α) :
    EStateM ε Engine α := fun e =>
  match question e.heap with
  | .ok a => .ok a e
  | .error err => .error (wrap err) e

def emitEvent {ε : Type} (event : Event) : EStateM ε Engine Unit :=
  modify fun e => { e with events := e.events.push event }

/-- Enter a scope of roots; the answer names it. -/
def enterScope {ε : Type} (kind : ScopeKind) : EStateM ε Engine Nat := fun e =>
  let (id, scopes) := e.heap.scopes.enter kind
  .ok id { e with heap.scopes := scopes }

/-- Leave a scope of roots; what is wrong with it is only reported. -/
def leaveScope {ε : Type} (id : Nat) : EStateM ε Engine Unit := fun e =>
  match e.heap.scopes.leave id with
  | .ok scopes => .ok () { e with heap.scopes := scopes }
  | .error err =>
    .ok () { e with events := e.events.push (.failure "unbalanced heap scope" (some err.message)) }

/-- Run steps inside a scope, which is left whether they succeed or not. -/
def withScope {ε α : Type} (kind : ScopeKind) (act : EStateM ε Engine α) : EStateM ε Engine α := do
  let id ← enterScope kind
  fun e =>
    match act.run e with
    | .ok a e => (leaveScope id *> pure a : EStateM ε Engine α) e
    | .error err e => (leaveScope id *> throw err : EStateM ε Engine α) e

/-- Leave the compilation context that was entered at a depth. -/
def leaveContext {ε : Type} (depth : Nat) : EStateM ε Engine Unit := fun e =>
  let (innermost, contexts) := e.contexts.leave depth
  let events :=
    if innermost then e.events
    else e.events.push (.failure "compile contexts released out of order" none)
  .ok () { e with contexts, events }

/-- Run steps inside a compilation context, which is left whether they succeed or not. -/
def withContext {ε α : Type} (context : CompileContext) (act : Nat → EStateM ε Engine α) :
    EStateM ε Engine α := fun e =>
  let (depth, contexts) := e.contexts.enter context
  match (act depth).run { e with contexts } with
  | .ok a e => (leaveContext depth *> pure a : EStateM ε Engine α) e
  | .error err e => (leaveContext depth *> throw err : EStateM ε Engine α) e

end Engine
end ScriptEngine
