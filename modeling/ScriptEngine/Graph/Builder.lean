import ScriptEngine.Graph.Basic

/-!
Building graphs block by block. A builder appends to its current block; the shorthands name the
operations that stub bodies and functions are made of.
-/

namespace ScriptEngine

structure Builder where
  graph : Graph
  current : BlockId
deriving Inhabited

/-- Building steps; a step that fails keeps what was built before it. -/
abbrev BuildM := EStateM GraphError Builder

namespace Builder

/-- A graph with an empty entry block. -/
def start (name : String) : Builder :=
  let (current, graph) := Graph.addBlock { name }
  { graph, current }

/-- Run a pure step on the graph. -/
def onGraph {α : Type} (step : Graph → Except GraphError (α × Graph)) : BuildM α := fun b =>
  match step b.graph with
  | .ok (a, graph) => .ok a { b with graph }
  | .error e => .error e b

/-- Create a block without moving to it. -/
def newBlock : BuildM BlockId := onGraph fun g => .ok g.addBlock

/-- Continue in a block. -/
def switchTo (block : BlockId) : BuildM Unit := modify ({ · with current := block })

def appendTo (block : BlockId) (op : Op) (inputs : List Input) : BuildM InstrId :=
  onGraph fun g => g.append block op inputs

/-- Append a primitive operation to the current block. -/
def emit (op : PrimOp) (inputs : List Input := []) : BuildM InstrId := do
  appendTo (← get).current (.prim op) inputs

/-- Append a script operation to the current block. -/
def emitScript (op : ScriptOp) (inputs : List Input := []) : BuildM InstrId := do
  appendTo (← get).current (.script op) inputs

def setSuccessors (block : BlockId) (successors : List BlockId) : BuildM Unit :=
  onGraph fun g => return ((), ← g.setSuccessors block successors)

/-- End the current block with an edge to another. -/
def jump (target : BlockId) : BuildM Unit := do setSuccessors (← get).current [target]

/-- End the current block with two edges, on the condition. -/
def branch (ifTrue ifFalse : BlockId) : BuildM Unit := do
  setSuccessors (← get).current [ifTrue, ifFalse]

def ret (value : Input) : BuildM InstrId := emit .ret [value]

/-- Add a parameter to a block. -/
def phi (block : BlockId) : BuildM InstrId := appendTo block (.prim .phi) []

/-- Pass a value to a parameter of the block that follows the current one. -/
def toPhi (phi : InstrId) (value : Input) : BuildM InstrId := emit .toPhi [phi, value]

def literal (c : Const) : BuildM InstrId := emit .literal [.const c]

/-- A bare machine word as an input. -/
def raw (n : Nat) : Input := .const (.raw n)

/-- Read the word at an offset of an object. -/
def read (object : Input) (offset : Nat) : BuildM InstrId := emit .read [object, raw offset]

/-- Write the word at an offset of an object. -/
def write (object : Input) (offset : Nat) (value : Input) : BuildM InstrId :=
  emit .write [object, raw offset, value]

def stubArg (index : Nat) : BuildM InstrId := emit .stubArg [raw index]

def cacheArg (index : Nat) : BuildM InstrId := emit .cacheArg [raw index]

def arg (index : Nat) : BuildM InstrId := emit .arg [raw index]

def isSmi (value : Input) : BuildM InstrId := emit .isSmi [value]

def comparePointer (a b : Input) (cond : Cond) : BuildM InstrId :=
  emit .comparePointer [a, b, .const (.cond cond)]

def compareSmi (a b : Input) (cond : Cond) : BuildM InstrId :=
  emit .compareSmi [a, b, .const (.cond cond)]

def testBits (value : Input) (mask : Int) : BuildM InstrId :=
  emit .testBits [value, .const (.raw mask)]

/-- Push arguments, the last one first. -/
def pushAll (args : List Input) : BuildM Unit :=
  args.reverse.forM fun arg => discard (emit .push [arg])

/-- Call a stub. -/
def callStub (name : String) (args : List Input) : BuildM InstrId := do
  pushAll args
  emit .callStub [.const (.stub name), raw args.length]

/-- Name of the stub that leads to the host. -/
def hostStub : String := "runtime"

/-- Call a host callback, whose number goes in front of the arguments. -/
def callHost (name : String) (args : List Input) : BuildM InstrId := do
  pushAll args
  let id ← literal (.callback name)
  discard (emit .push [id])
  emit .callStub [.const (.stub hostStub), raw (args.length + 1)]

/-- Name of the stub that allocates objects of a root shape. -/
def allocStub (kind : RootShape) : String := "allocTagged/" ++ kind.name

/-- Allocate an object of a root shape. -/
def alloc (kind : RootShape) (size : Input) : BuildM InstrId := callStub (allocStub kind) [size]

/-- The graph that some steps build. -/
def build (name : String) (steps : BuildM Unit) : Except GraphError Graph :=
  match steps.run (start name) with
  | .ok _ b => .ok b.graph
  | .error e _ => .error e

end Builder
end ScriptEngine
