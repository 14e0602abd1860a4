import ScriptEngine.Error
import ScriptEngine.Graph.Builder
import ScriptEngine.Syntax.Tree

/-!
State and steps of graph construction. Each function under construction has an environment from
variables to the instructions that hold their values. A branch starts both arms from one
environment, and where arms join, a variable whose values differ becomes a parameter of the
joining block.
-/

namespace ScriptEngine

/-- What an environment gives a value to. -/
inductive Variable where
  | name (text : String)
  /-- The value of a script so far. -/
  | completion
  /-- The value of an expression, carried across a join. -/
  | result
deriving DecidableEq, Inhabited

/-- Text by which variables are put in order where arms join. -/
def Variable.sortKey : Variable → String
  | name text => text
  | completion => "%completion"
  | result => "%result"

/-- Put a variable into an ordered list, in front of those with the same text. -/
def Variable.insertOrdered (x : Variable) : List Variable → List Variable
  | [] => [x]
  | y :: rest => if y.sortKey < x.sortKey then y :: x.insertOrdered rest else x :: y :: rest

/-- Values of variables, each variable once. -/
abbrev Env := List (Variable × InstrId)

namespace Env

def get? (env : Env) (x : Variable) : Option InstrId := env.lookup x

def erase (env : Env) (x : Variable) : Env := env.filter (·.1 != x)

def insert (env : Env) (x : Variable) (value : InstrId) : Env := (x, value) :: env.erase x

def contains (env : Env) (x : Variable) : Bool := (env.get? x).isSome

def domain (env : Env) : List Variable := env.map (·.1)

end Env

/-- A function under construction. -/
structure Frame where
  builder : Builder
  env : Env := []
  /-- Whether names are globals. -/
  topLevel : Bool := false
  /-- Whether the current block has returned. -/
  done : Bool := false
deriving Inhabited

/-- Graphs of a script: functions get a place when they are met and a graph when it is built. -/
structure Construction where
  graphs : Array (Option Graph) := #[]
  frame : Frame
deriving Inhabited

abbrev ConstructM := EStateM SourceError Construction

/-- One incoming edge of a join. -/
structure Arm where
  block : BlockId
  env : Env
  done : Bool

namespace Construction

def unsupported {α : Type} (feature : String) : ConstructM α := throw (.unsupported feature)

def modifyFrame (f : Frame → Frame) : ConstructM Unit :=
  modify fun c => { c with frame := f c.frame }

/-- A step on the graph of the current function. -/
def build {α : Type} (step : BuildM α) : ConstructM α := fun c =>
  match step.run c.frame.builder with
  | .ok a builder => .ok a { c with frame.builder := builder }
  | .error e builder => .error (.graph e) { c with frame.builder := builder }

def literal (c : Const) : ConstructM InstrId := build (Builder.literal c)

def emit (op : ScriptOp) (inputs : List Input := []) : ConstructM InstrId :=
  build (Builder.emitScript op inputs)

def textInput (s : String) : Input := .const (.text s)

def envGet? (x : Variable) : ConstructM (Option InstrId) := return (← get).frame.env.get? x

def envInsert (x : Variable) (value : InstrId) : ConstructM Unit :=
  modifyFrame fun f => { f with env := f.env.insert x value }

/-! ### Functions -/

/-- Give a function its place. -/
def reserve : ConstructM Nat := do
  let index := (← get).graphs.size
  modify fun c => { c with graphs := c.graphs.push none }
  return index

/-- Build a function in a frame of its own and put its graph in its place. -/
def inFrame (index : Nat) (frame : Frame) (body : ConstructM Unit) : ConstructM Unit := do
  let outer := (← get).frame
  modify fun c => { c with frame }
  body
  modify fun c => { c with
    graphs := c.graphs.setIfInBounds index (some c.frame.builder.graph), frame := outer }

/-- End a function. -/
def ret (value : InstrId) : ConstructM Unit := do
  discard (build (Builder.ret value))
  modifyFrame fun f => { f with done := true }

/-- Return `undefined` if the function has not returned yet. -/
def retUndefined : ConstructM Unit := do
  if !(← get).frame.done then ret (← literal .undefined)

/-- Declare a name: a global outside of functions, a local otherwise. -/
def bind (name : String) (value : InstrId) : ConstructM Unit := do
  if (← get).frame.topLevel then discard (emit .storeGlobal [textInput name, value])
  else envInsert (.name name) value

/-- Bind parameters to the arguments of the same places. -/
def bindParams : Nat → List Syntax.Binding → ConstructM Unit
  | _, [] => return
  | i, .name text :: rest => do
    envInsert (.name text) (← build (Builder.arg i))
    bindParams (i + 1) rest
  | _, .pattern :: _ => unsupported "Complex parameter patterns"

/-- Declare the parameters of a function. -/
def params (p : Syntax.Params) : ConstructM Unit := do
  if p.rest then unsupported "rest parameters"
  bindParams 0 p.items
  build (modify fun b => { b with graph.params := p.items.length })

/-! ### Control flow -/

/-- End the current block with a branch on the truth of a value. -/
def split (test : InstrId) : ConstructM (BlockId × BlockId) := do
  discard (emit .branch [test])
  let yes ← build Builder.newBlock
  let no ← build Builder.newBlock
  build (Builder.branch yes no)
  return (yes, no)

/-- Continue in a block with an environment. -/
def resume (block : BlockId) (env : Env) : ConstructM Unit := do
  build (Builder.switchTo block)
  modifyFrame fun f => { f with env, done := false }

/-- The current position as an edge of a join. -/
def capture : ConstructM Arm := do
  let f := (← get).frame
  return { block := f.builder.current, env := f.env, done := f.done }

/-- Pass the value of a variable from an arm to a parameter; a variable that the arm does not know
is `undefined` there. -/
def passFrom (phi : InstrId) (x : Variable) (arm : Arm) : ConstructM Unit := do
  let value ← match arm.env.get? x with
    | some value => pure value
    | none => build (Builder.appendTo arm.block (.prim .literal) [.const .undefined])
  discard (build (Builder.appendTo arm.block (.prim .toPhi) [phi, value]))

/-- The one value that a variable has in all arms. -/
def common? (arms : List Arm) (x : Variable) : Option InstrId :=
  match arms.map (·.env.get? x) with
  | some first :: rest => if rest.all (· == some first) then some first else none
  | _ => none

/-- Value of a variable after a join. -/
def merge (join : BlockId) (arms : List Arm) (x : Variable) : ConstructM (Variable × InstrId) := do
  match common? arms x with
  | some value => return (x, value)
  | none =>
    let phi ← build (Builder.phi join)
    arms.forM (passFrom phi x)
    return (x, phi)

/-- Variables that some arm knows, in order. -/
def knownVariables (arms : List Arm) : List Variable :=
  ((arms.flatMap (·.env.domain)).foldr Variable.insertOrdered []).eraseReps

/-- Continue where arms that have not returned meet. -/
def join (arms : List Arm) : ConstructM Unit := do
  let live := arms.filter (!·.done)
  if live.isEmpty then modifyFrame fun f => { f with done := true }
  else
    let block ← build Builder.newBlock
    live.forM fun arm => build (Builder.setSuccessors arm.block [block])
    let env ← (knownVariables live).mapM (merge block live)
    resume block env

/-- The value that a join carried. -/
def takeResult : ConstructM InstrId := do
  match ← envGet? .result with
  | some value =>
    modifyFrame fun f => { f with env := f.env.erase .result }
    return value
  | none => literal .undefined

/-- One arm of an expression with two: its value is carried to the join. -/
def resultArm (block : BlockId) (env : Env) (value : ConstructM InstrId) : ConstructM Arm := do
  resume block env
  envInsert .result (← value)
  capture

/-! ### Names, properties and operators -/

/-- Value of a name: of a local, else of a global. `undefined` is a constant unless it is a
local. -/
def loadName (name : String) : ConstructM InstrId := do
  match ← envGet? (.name name) with
  | some value => return value
  | none =>
    if name = "undefined" then literal .undefined else emit .loadGlobal [textInput name]

def loadProperty (object key : InstrId) : ConstructM InstrId := emit .loadProperty [object, key]

def storeProperty (object key value : InstrId) : ConstructM InstrId :=
  emit .storeProperty [object, key, value]

/-- A place that can be assigned to, with its parts evaluated. -/
inductive Place where
  | local (name : String)
  | global (name : String)
  | property (object key : InstrId)

/-- The place of a name: outside of functions every name is a global. -/
def placeOf (name : String) : ConstructM Place := do
  if (← get).frame.topLevel || !(← get).frame.env.contains (.name name) then return .global name
  else return .local name

def Place.read : Place → ConstructM InstrId
  | .local name | .global name => loadName name
  | .property object key => loadProperty object key

def Place.write (value : InstrId) : Place → ConstructM InstrId
  | .local name => do
    envInsert (.name name) value
    return value
  | .global name => emit .storeGlobal [textInput name, value]
  | .property object key => storeProperty object key value

/-- Whole numbers below `2 ^ 53` are small integers, except a negative zero. -/
def numberConst (x : Double) : Const :=
  if x.isIntegral && !(x.isZero && x.isNegative) && x.magnitude < 2 ^ 53 * Double.unitsPerOne then
    .smi x.truncate
  else .number x

def applyBinary (op : BinaryOp) (left right : InstrId) : ConstructM InstrId :=
  emit .binary [.const (.binary op), left, right]

/-- Apply an operator of the source. Two of them swap their operands. -/
def applySign (sign : Syntax.BinarySign) (left right : InstrId) : ConstructM InstrId :=
  match sign with
  | .add => applyBinary .add left right
  | .sub => applyBinary .sub left right
  | .mul => applyBinary .mul left right
  | .lt => applyBinary .lt left right
  | .le => applyBinary .le left right
  | .gt => applyBinary .lt right left
  | .ge => applyBinary .le right left
  | .equal => applyBinary .strictEq left right
  | .unequal => applyBinary .strictNe left right
  | .instanceOf => applyBinary .instanceOf left right
  | .other spelling => unsupported ("Binary operator " ++ spelling)

def applyUnary (op : UnaryOp) (value : InstrId) : ConstructM InstrId :=
  emit .unary [.const (.unary op), value]

/-- The operation that an assignment applies to the old value, if any. -/
def compound? : Syntax.AssignSign → ConstructM (Option BinaryOp)
  | .plain => return none
  | .add => return some .add
  | .sub => return some .sub
  | .mul => return some .mul
  | .other spelling => unsupported ("Assignment operator " ++ spelling)

/-- Constant of a key in an object literal. -/
def keyConst : Syntax.Key → ConstructM Const
  | .text s => return .text s
  | .number n => return numberConst n
  | .computed => unsupported "Computed property keys"

/-- Push arguments, the last one first. -/
def pushArgs (args : List InstrId) : ConstructM Unit := build (Builder.pushAll (args.map .value))

/-- The number of arguments as an input. -/
def countInput (args : List InstrId) : Input := Builder.raw args.length

/-- Call a function with a receiver and arguments. -/
def callWith (callee receiver : InstrId) (args : List InstrId) : ConstructM InstrId := do
  pushArgs args
  build (Builder.emit .call [callee, receiver, countInput args])

end Construction
end ScriptEngine
