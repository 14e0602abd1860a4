import Std.Data.TreeMap
import Std.Data.TreeSet
import ScriptEngine.Error
import ScriptEngine.Stub.Allocation
import ScriptEngine.Stub.Operators
import ScriptEngine.Stub.Properties

/-!
The library of stubs. Bodies are declared by name and compiled when something first asks for
them; what was compiled is kept for ever. While a stub is being compiled it may not need itself.
-/

namespace ScriptEngine

/-- A compiled stub. -/
structure Stub where
  function : Word
  code : Word
deriving DecidableEq, Inhabited

inductive StubSource where
  /-- Compiled from a body. -/
  | body (build : BuildM Unit)
  /-- The entry to the host. -/
  | host

/-- The graph of a body. -/
def StubSource.graph? (name : String) : StubSource → Option (Except GraphError Graph)
  | body build => some (Builder.build name build)
  | host => none

structure StubLibrary where
  declared : Std.TreeMap String StubSource := ∅
  compiled : Std.TreeMap String Stub := ∅
  inProgress : Std.TreeSet String := ∅

instance : Inhabited StubLibrary := ⟨{}⟩

namespace StubLibrary

def declare (l : StubLibrary) (name : String) (source : StubSource) :
    Except CompileError StubLibrary :=
  if l.declared.contains name then
    .error (.internal "declareStub" ("stub '" ++ name ++ "' declared twice"))
  else .ok { l with declared := l.declared.insert name source }

def source (l : StubLibrary) (name : String) : Except CompileError StubSource :=
  match l.declared[name]? with
  | some source => .ok source
  | none => .error (.unknownStub name)

def compiled? (l : StubLibrary) (name : String) : Option Stub := l.compiled[name]?

/-- Note that a stub is being compiled. -/
def begin (l : StubLibrary) (name : String) : Except CompileError StubLibrary :=
  if l.inProgress.contains name then
    .error (.internal "getStub" ("stub '" ++ name ++ "' depends on itself"))
  else .ok { l with inProgress := l.inProgress.insert name }

/-- Note that a stub is no longer being compiled, and keep the result if there is one. -/
def finish (l : StubLibrary) (name : String) (result : Option Stub) : StubLibrary :=
  { l with
    inProgress := l.inProgress.erase name
    compiled := match result with
      | some stub => l.compiled.insert name stub
      | none => l.compiled }

/-- The function `log` of scripts. -/
def logBody : BuildM Unit := do
  let value ← Builder.arg 0
  discard (Builder.callHost "log" [value])
  Stub.retLiteral .undefined

/-- Every stub that compiled code may call. -/
def standardSources : List (String × StubSource) :=
  [(Builder.hostStub, .host)] ++
  (Stub.allocatedShapes.map fun kind => (Builder.allocStub kind, .body (Stub.allocBody kind))) ++
  [("allocField", .body Stub.storeBody),
    ("allocObject", .body Stub.objectBody),
    ("allocArray", .body Stub.arrayBody),
    ("allocFn", .body Stub.functionBody),
    ("new", .body Stub.constructBody),
    ("checkFunction", .body Stub.checkFunctionBody),
    ("coerce/boolean", .body Stub.truthBody),
    ("unary/-", .body Stub.negateBody),
    ("unary/!", .body Stub.notBody)] ++
  (BinaryOp.all.map fun op => (Stub.binaryName op, .body (Stub.binaryBody op))) ++
  [(Stub.missStub, .body Stub.missBody),
    ("loadPropertySlot", .body Stub.loadBody),
    ("storePropertySlot", .body Stub.storeSlotBody),
    ("deletePropertySlot", .body Stub.deleteBody),
    ("noop", .body (Stub.retLiteral .undefined)),
    ("log", .body logBody)]

def standard : StubLibrary := { declared := .ofList standardSources }

end StubLibrary
end ScriptEngine
