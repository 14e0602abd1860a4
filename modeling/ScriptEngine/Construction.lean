import ScriptEngine.Construction.Basic
import ScriptEngine.Syntax.Statements

/-!
Construction of instruction graphs from trees, in one walk. The script comes first; every function
in it has a later place, and is referred to by that place.
-/

namespace ScriptEngine.Construction

open Syntax

mutual

/-- Build an expression; the answer is the instruction that holds its value. -/
def expression : Expr → ConstructM InstrId
  | .number value => literal (numberConst value)
  | .text value => literal (.text value)
  | .bool value => literal (.bool value)
  | .null => literal .null
  | .name text => loadName text
  | .this => build (Builder.emit .receiver)
  | .binary sign left right => do
    let left ← expression left
    let right ← expression right
    applySign sign left right
  | .logical sign left right => do
    let left ← expression left
    let (yes, no) ← split left
    let env := (← get).frame.env
    let (long, short) ← match sign with
      | .and => pure (yes, no)
      | .or => pure (no, yes)
      | .coalesce => unsupported "Operator ??"
    let shortArm ← resultArm short env (pure left)
    let longArm ← resultArm long env (expression right)
    join [shortArm, longArm]
    takeResult
  | .unary .minus operand => do applyUnary .neg (← expression operand)
  | .unary .not operand => do applyUnary .not (← expression operand)
  | .unary .void operand => do
    discard (expression operand)
    literal .undefined
  | .unary .delete (.member object name) => do
    let object ← expression object
    let key ← literal (.text name)
    emit .deleteProperty [object, key]
  | .unary .delete (.index object key) => do
    let object ← expression object
    let key ← expression key
    emit .deleteProperty [object, key]
  | .unary .delete (.name text) => do
    match ← envGet? (.name text) with
    | none => emit .deleteGlobal [textInput text]
    | some _ => literal (.bool false)
  | .unary .delete operand => do
    discard (expression operand)
    literal (.bool true)
  | .unary (.other spelling) _ => unsupported ("Unary operator " ++ spelling)
  | .assign sign target value => do
    let op ← compound? sign
    let place ← placeFor target
    match op with
    | none => place.write (← expression value)
    | some op =>
      let old ← place.read
      let right ← expression value
      place.write (← applyBinary op old right)
  | .call (.member object name) args => do
    let object ← expression object
    let key ← literal (.text name)
    callWith (← loadProperty object key) object (← arguments args)
  | .call (.index object key) args => do
    let object ← expression object
    let key ← expression key
    callWith (← loadProperty object key) object (← arguments args)
  | .call callee args => do
    let callee ← expression callee
    let receiver ← literal .undefined
    callWith callee receiver (← arguments args)
  | .new callee args => do
    let callee ← expression callee
    let args ← arguments args
    pushArgs args
    emit .construct [callee, countInput args]
  | .member object name => do
    let object ← expression object
    loadProperty object (← literal (.text name))
  | .index object key => do
    let object ← expression object
    loadProperty object (← expression key)
  | .object list => do
    let object ← emit .object
    properties object list
    return object
  | .array list => do
    let array ← emit .array [Builder.raw list.length]
    elements array 0 list
    return array
  | .function f => closure f
  | .conditional test yes no => do
    let (yesBlock, noBlock) ← split (← expression test)
    let env := (← get).frame.env
    let yesArm ← resultArm yesBlock env (expression yes)
    let noArm ← resultArm noBlock env (expression no)
    join [yesArm, noArm]
    takeResult
  | .paren inner => expression inner
  | .sequence first second => do
    discard (expression first)
    expression second
  | .privateMember | .unsupported => unsupported "Unknown expression type"

/-- Evaluate the parts of a place. -/
def placeFor : Target → ConstructM Place
  | .name text => placeOf text
  | .member object name => do
    let object ← expression object
    return .property object (← literal (.text name))
  | .index object key => do
    let object ← expression object
    return .property object (← expression key)
  | .other => throw .invalidAssignmentTarget

/-- Evaluate arguments in order. -/
def arguments : List Element → ConstructM (List InstrId)
  | [] => return []
  | .item value :: rest => do
    let first ← expression value
    return first :: (← arguments rest)
  | .hole :: rest => arguments rest
  | .spread :: _ => unsupported "Spread arguments"

/-- Store the properties of an object literal. A value is evaluated before its key is there. -/
def properties (object : InstrId) : List Property → ConstructM Unit
  | [] => return
  | .entry key value :: rest => do
    let key ← keyConst key
    let value ← expression value
    discard (storeProperty object (← literal key) value)
    properties object rest
  | .spread :: _ => unsupported "Object spread"

/-- Store the elements of an array literal from an index on; those left out stay holes. -/
def elements (array : InstrId) : Nat → List Element → ConstructM Unit
  | _, [] => return
  | i, .item value :: rest => do
    let value ← expression value
    discard (storeProperty array (← literal (.smi i)) value)
    elements array (i + 1) rest
  | i, .hole :: rest => elements array (i + 1) rest
  | _, .spread :: _ => unsupported "Array spread"

/-- Build a function and refer to it. -/
def closure : Function → ConstructM InstrId
  | .mk name ps content => do
    let index ← reserve
    inFrame index { builder := Builder.start (name.getD "anonymous") } do
      params ps
      body content
      retUndefined
    emit .closure [.const (.function index)]

def body : Body → ConstructM Unit
  | .expression value => do ret (← expression value)
  | .statements list => do
    hoist list
    statements list

/-- Bind the functions that a list of statements declares, before the statements run. -/
def hoist : List Stmt → ConstructM Unit
  | [] => return
  | .function (.mk name ps content) :: rest => do
    let value ← closure (.mk name ps content)
    match name with
    | some name => bind name value
    | none => pure ()
    hoist rest
  | _ :: rest => hoist rest

/-- Build statements up to the first that returns. -/
def statements : List Stmt → ConstructM Unit
  | [] => return
  | s :: rest => do
    if !(← get).frame.done then
      statement s
      statements rest

def statement : Stmt → ConstructM Unit
  | .expression value => do
    let value ← expression value
    if (← get).frame.topLevel then envInsert .completion value
  | .declare items => declarators items
  | .ret (some value) => do ret (← expression value)
  | .ret none => do ret (← literal .undefined)
  | .block list => do
    hoist list
    statements list
  | .branch test yes no => do
    let (yesBlock, noBlock) ← split (← expression test)
    let env := (← get).frame.env
    resume yesBlock env
    statement yes
    let yesArm ← capture
    resume noBlock env
    alternative no
    join [yesArm, ← capture]
  | .function _ | .empty => return
  | .debugger => discard (build (Builder.emit .trap))
  | .loop => unsupported "Loops"
  | .unsupported => unsupported "Unknown statement type"

/-- The arm for a condition that does not hold. -/
def alternative : Option Stmt → ConstructM Unit
  | some s => statement s
  | none => return

def declarators : List Declarator → ConstructM Unit
  | [] => return
  | .mk .pattern _ :: _ => unsupported "Destructuring declarations"
  | .mk (.name text) (some value) :: rest => do
    bind text (← expression value)
    declarators rest
  | .mk (.name text) none :: rest => do
    bind text (← literal .undefined)
    declarators rest

end

/-- Build a script: its value is that of the last expression statement that ran. -/
def script (list : List Stmt) : ConstructM Unit := do
  let index ← reserve
  inFrame index { builder := Builder.start "script", topLevel := true } do
    let undefined ← literal .undefined
    envInsert .completion undefined
    hoist list
    statements list
    if !(← get).frame.done then ret ((← envGet? .completion).getD undefined)

/-- Every function has a graph. -/
def finish (graphs : Array (Option Graph)) : Except SourceError (List Graph) :=
  graphs.toList.zipIdx.mapM fun (graph, i) =>
    match graph with
    | some g => .ok g
    | none => .error (.unsupported s!"function #{i} was never built")

/-- Graphs of the statements of a script, the script first. -/
def graphsOf (list : List Stmt) : Except SourceError (List Graph) :=
  match (script list).run { frame := { builder := Builder.start "" } } with
  | .ok _ c => finish c.graphs
  | .error e _ => .error e

/-- Graphs of source text, the script first. -/
def construct (source : String) : Except SourceError (List Graph) :=
  match parse? source with
  | some list => graphsOf list
  | none => .error .parse

end ScriptEngine.Construction
