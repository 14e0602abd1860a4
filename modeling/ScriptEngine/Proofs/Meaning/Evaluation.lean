import ScriptEngine.Construction.Basic
import ScriptEngine.Proofs.Meaning.Execution

/-!
Evaluation of trees, left to right, with local variables that change. The world answers the same
requests as for graphs. Which names are local is a matter of the text: a name is local from the
first declaration or parameter that a walk over the text meets on a way that has not returned, and
its value is `undefined` until a declaration or an assignment runs. Outside of functions every name
is a global.
-/

namespace ScriptEngine.Meaning

open Syntax

/-- Names that are local at a place of the text. -/
abbrev Names := List String

/-! ### Which names are local -/

def Binding.names : Binding → Names
  | .name text => [text]
  | .pattern => []

def Declarator.names : Declarator → Names
  | .mk binding _ => Binding.names binding

/-- Names of the functions that a list of statements declares. -/
def hoisted : List Stmt → Names
  | [] => []
  | .function (.mk (some name) _ _) :: rest => name :: hoisted rest
  | _ :: rest => hoisted rest

/-- Names known where ways meet; a way that has returned does not count. -/
def meet : Option Names → Option Names → Option Names
  | some a, some b => some (a ++ b)
  | some a, none => some a
  | none, other => other

/-- Names that are local after some were declared; outside of functions these are globals. -/
def declare (topLevel : Bool) (names known : Names) : Names :=
  if topLevel then known else names ++ known

mutual

/-- Local names after a statement, if it does not return on all ways. -/
def scopeAfter (topLevel : Bool) (known : Names) : Stmt → Option Names
  | .declare items => some (declare topLevel (items.flatMap Declarator.names) known)
  | .ret _ => none
  | .block list => scopeAfterAll topLevel (declare topLevel (hoisted list) known) list
  | .branch _ yes no => meet (scopeAfter topLevel known yes) (scopeAfterElse topLevel known no)
  | .expression _ | .function _ | .empty | .debugger | .loop | .unsupported => some known

def scopeAfterElse (topLevel : Bool) (known : Names) : Option Stmt → Option Names
  | some s => scopeAfter topLevel known s
  | none => some known

def scopeAfterAll (topLevel : Bool) (known : Names) : List Stmt → Option Names
  | [] => some known
  | s :: rest =>
    match scopeAfter topLevel known s with
    | some known => scopeAfterAll topLevel known rest
    | none => none

end

/-- Local names after the body of a function, if it does not return on all ways. -/
def scopeAfterBody (topLevel : Bool) (known : Names) : Body → Option Names
  | .expression _ => none
  | .statements list => scopeAfterAll topLevel (declare topLevel (hoisted list) known) list

/-! ### Which functions a text has -/

mutual

/-- Functions of an expression in the order in which a walk meets them, each before those inside
it. -/
def Expr.functions : Expr → List Function
  | .number _ | .text _ | .bool _ | .null | .name _ | .this | .privateMember | .unsupported => []
  | .binary _ left right => Expr.functions left ++ Expr.functions right
  | .logical _ left right => Expr.functions left ++ Expr.functions right
  | .unary _ operand => Expr.functions operand
  | .assign _ target value => Target.functions target ++ Expr.functions value
  | .call callee args => Expr.functions callee ++ elementFunctions args
  | .new callee args => Expr.functions callee ++ elementFunctions args
  | .member object _ => Expr.functions object
  | .index object key => Expr.functions object ++ Expr.functions key
  | .object list => propertyFunctions list
  | .array list => elementFunctions list
  | .function f => Function.functions f
  | .conditional test yes no =>
    Expr.functions test ++ (Expr.functions yes ++ Expr.functions no)
  | .paren inner => Expr.functions inner
  | .sequence first second => Expr.functions first ++ Expr.functions second

def Target.functions : Target → List Function
  | .name _ | .other => []
  | .member object _ => Expr.functions object
  | .index object key => Expr.functions object ++ Expr.functions key

def elementFunctions : List Element → List Function
  | [] => []
  | .item value :: rest => Expr.functions value ++ elementFunctions rest
  | .hole :: rest | .spread :: rest => elementFunctions rest

def propertyFunctions : List Property → List Function
  | [] => []
  | .entry _ value :: rest => Expr.functions value ++ propertyFunctions rest
  | .spread :: rest => propertyFunctions rest

def Function.functions : Function → List Function
  | .mk name ps content => .mk name ps content :: Body.functions content

def Body.functions : Body → List Function
  | .expression value => Expr.functions value
  | .statements list => hoistedFunctions list ++ statementFunctions list

/-- Functions that a list of statements declares come before the others in it. -/
def hoistedFunctions : List Stmt → List Function
  | [] => []
  | .function f :: rest => Function.functions f ++ hoistedFunctions rest
  | _ :: rest => hoistedFunctions rest

/-- What stands after a statement that returns on all ways is not part of the text. -/
def statementFunctions : List Stmt → List Function
  | [] => []
  | s :: rest => Stmt.functions s ++
    if (scopeAfter true [] s).isSome then statementFunctions rest else []

def Stmt.functions : Stmt → List Function
  | .expression value => Expr.functions value
  | .declare items => declaratorFunctions items
  | .ret value => optionFunctions value
  | .block list => hoistedFunctions list ++ statementFunctions list
  | .branch test yes no =>
    Expr.functions test ++ (Stmt.functions yes ++ alternativeFunctions no)
  | .function _ | .empty | .debugger | .loop | .unsupported => []

def alternativeFunctions : Option Stmt → List Function
  | some s => Stmt.functions s
  | none => []

def optionFunctions : Option Expr → List Function
  | some value => Expr.functions value
  | none => []

def declaratorFunctions : List Declarator → List Function
  | [] => []
  | .mk _ value :: rest => optionFunctions value ++ declaratorFunctions rest

end

/-- Functions of a script in the order of their graphs. -/
def scriptFunctions (list : List Stmt) : List Function :=
  hoistedFunctions list ++ statementFunctions list

/-! ### Values -/

/-- What evaluation changes. -/
structure Locals (V σ : Type) where
  vars : String → V
  /-- Value of the last expression statement of a script. -/
  completion : V
  world : σ

abbrev EvalM (V σ : Type) := StateM (Locals V σ)

/-- A place that can be assigned to, with its parts evaluated. -/
inductive Place (V : Type) where
  | local (name : String)
  | global (name : String)
  | property (object key : V)

/-- How a statement ended. -/
inductive Outcome (V : Type) where
  | next
  | returned (value : V)

/-- Where a piece of text stands. -/
structure Site (V σ : Type) where
  answerer : Answerer V σ
  inputs : Inputs V
  topLevel : Bool

namespace Site

variable {V σ : Type} (S : Site V σ)

def ask (r : Request V) : EvalM V σ V := fun s =>
  let (value, world) := S.answerer.answer r s.world
  (value, { s with world })

def truth (value : V) : EvalM V σ Bool := fun s =>
  let (holds, world) := S.answerer.truth value s.world
  (holds, { s with world })

def constant (c : Const) : EvalM V σ V := pure (S.answerer.constant c)

def setVar (name : String) (value : V) : EvalM V σ Unit :=
  modify fun s => { s with vars := fun n => if n = name then value else s.vars n }

/-- Declare a name. -/
def bind (name : String) (value : V) : EvalM V σ Unit := do
  if S.topLevel then discard (S.ask (.storeGlobal name value)) else setVar name value

def loadName (known : Names) (name : String) : EvalM V σ V := do
  if name ∈ known then return (← get).vars name
  else if name = "undefined" then S.constant .undefined
  else S.ask (.loadGlobal name)

def placeOf (known : Names) (name : String) : Place V :=
  if name ∈ known then .local name else .global name

def readPlace (known : Names) : Place V → EvalM V σ V
  | .local name | .global name => S.loadName known name
  | .property object key => S.ask (.loadProperty object key)

def writePlace (value : V) : Place V → EvalM V σ V
  | .local name => do
    setVar name value
    return value
  | .global name => S.ask (.storeGlobal name value)
  | .property object key => S.ask (.storeProperty object key value)

/-- Apply an operator of the source; "greater" is "less" with its operands in the other order. -/
def applySign (sign : BinarySign) (left right : V) : EvalM V σ V :=
  match sign with
  | .add => S.ask (.binary .add left right)
  | .sub => S.ask (.binary .sub left right)
  | .mul => S.ask (.binary .mul left right)
  | .lt => S.ask (.binary .lt left right)
  | .le => S.ask (.binary .le left right)
  | .gt => S.ask (.binary .lt right left)
  | .ge => S.ask (.binary .le right left)
  | .equal => S.ask (.binary .strictEq left right)
  | .unequal => S.ask (.binary .strictNe left right)
  | .instanceOf => S.ask (.binary .instanceOf left right)
  | .other _ => S.constant .undefined

def compound? : AssignSign → Option BinaryOp
  | .add => some .add
  | .sub => some .sub
  | .mul => some .mul
  | .plain | .other _ => none

/-- Key of a property in an object literal. -/
def keyConst : Key → Const
  | .text s => .text s
  | .number n => Construction.numberConst n
  | .computed => .undefined

mutual

/-- Value of an expression where some names are local. Forms outside the compiled language have no
meaning of their own. -/
def expression (known : Names) : Expr → EvalM V σ V
  | .number value => S.constant (Construction.numberConst value)
  | .text value => S.constant (.text value)
  | .bool value => S.constant (.bool value)
  | .null => S.constant .null
  | .name text => S.loadName known text
  | .this => return S.inputs.receiver
  | .binary sign left right => do
    let left ← expression known left
    let right ← expression known right
    S.applySign sign left right
  | .logical sign left right => do
    let value ← expression known left
    let holds ← S.truth value
    match sign with
    | .and => if holds then expression known right else return value
    | .or => if holds then return value else expression known right
    | .coalesce => return value
  | .unary .minus operand => do S.ask (.unary .neg (← expression known operand))
  | .unary .not operand => do S.ask (.unary .not (← expression known operand))
  | .unary .void operand => do
    discard (expression known operand)
    S.constant .undefined
  | .unary .delete (.member object name) => do
    let object ← expression known object
    S.ask (.deleteProperty object (← S.constant (.text name)))
  | .unary .delete (.index object key) => do
    let object ← expression known object
    S.ask (.deleteProperty object (← expression known key))
  | .unary .delete (.name text) =>
    if text ∈ known then S.constant (.bool false) else S.ask (.deleteGlobal text)
  | .unary .delete operand => do
    discard (expression known operand)
    S.constant (.bool true)
  | .unary (.other _) _ => S.constant .undefined
  | .assign sign target value => do
    let place ← placeFor known target
    match compound? sign with
    | none => S.writePlace (← expression known value) place
    | some op =>
      let old ← S.readPlace known place
      let right ← expression known value
      S.writePlace (← S.ask (.binary op old right)) place
  | .call (.member object name) args => do
    let object ← expression known object
    let callee ← S.ask (.loadProperty object (← S.constant (.text name)))
    S.ask (.call callee object (← arguments known args))
  | .call (.index object key) args => do
    let object ← expression known object
    let key ← expression known key
    let callee ← S.ask (.loadProperty object key)
    S.ask (.call callee object (← arguments known args))
  | .call callee args => do
    let callee ← expression known callee
    let receiver ← S.constant .undefined
    S.ask (.call callee receiver (← arguments known args))
  | .new callee args => do
    let callee ← expression known callee
    S.ask (.construct callee (← arguments known args))
  | .member object name => do
    let object ← expression known object
    S.ask (.loadProperty object (← S.constant (.text name)))
  | .index object key => do
    let object ← expression known object
    S.ask (.loadProperty object (← expression known key))
  | .object list => do
    let object ← S.ask .object
    properties known object list
    return object
  | .array list => do
    let array ← S.ask (.array list.length)
    elements known array 0 list
    return array
  | .function f => S.ask (.closure f)
  | .conditional test yes no => do
    if ← S.truth (← expression known test) then expression known yes else expression known no
  | .paren inner => expression known inner
  | .sequence first second => do
    discard (expression known first)
    expression known second
  | .privateMember | .unsupported => S.constant .undefined

/-- The parts of a place. -/
def placeFor (known : Names) : Target → EvalM V σ (Place V)
  | .name text => return placeOf known text
  | .member object name => do
    let object ← expression known object
    return .property object (← S.constant (.text name))
  | .index object key => do
    let object ← expression known object
    return .property object (← expression known key)
  | .other => return .global ""

def arguments (known : Names) : List Element → EvalM V σ (List V)
  | [] => return []
  | .item value :: rest => do
    let first ← expression known value
    return first :: (← arguments known rest)
  | .hole :: rest => arguments known rest
  | .spread :: rest => arguments known rest

def properties (known : Names) (object : V) : List Property → EvalM V σ Unit
  | [] => return
  | .entry key value :: rest => do
    let value ← expression known value
    discard (S.ask (.storeProperty object (← S.constant (keyConst key)) value))
    properties known object rest
  | .spread :: rest => properties known object rest

def elements (known : Names) (array : V) : Nat → List Element → EvalM V σ Unit
  | _, [] => return
  | i, .item value :: rest => do
    let value ← expression known value
    discard (S.ask (.storeProperty array (← S.constant (.smi i)) value))
    elements known array (i + 1) rest
  | i, .hole :: rest => elements known array (i + 1) rest
  | i, .spread :: rest => elements known array (i + 1) rest

end

/-- Bind the functions that a list of statements declares, before the statements run. -/
def hoist : List Stmt → EvalM V σ Unit
  | [] => return
  | .function (.mk name ps content) :: rest => do
    let value ← S.ask (.closure (.mk name ps content))
    match name with
    | some name => S.bind name value
    | none => pure ()
    hoist rest
  | _ :: rest => hoist rest

def declarators (known : Names) : List Declarator → EvalM V σ Unit
  | [] => return
  | .mk .pattern _ :: rest => declarators known rest
  | .mk (.name text) (some value) :: rest => do
    S.bind text (← S.expression known value)
    declarators (declare S.topLevel [text] known) rest
  | .mk (.name text) none :: rest => do
    S.bind text (← S.constant .undefined)
    declarators (declare S.topLevel [text] known) rest

mutual

def statement (known : Names) : Stmt → EvalM V σ (Outcome V)
  | .expression value => do
    let value ← S.expression known value
    if S.topLevel then modify fun s => { s with completion := value }
    return .next
  | .declare items => do
    S.declarators known items
    return .next
  | .ret (some value) => return .returned (← S.expression known value)
  | .ret none => return .returned (← S.constant .undefined)
  | .block list => do
    S.hoist list
    statements (declare S.topLevel (hoisted list) known) list
  | .branch test yes no => do
    if ← S.truth (← S.expression known test) then statement known yes
    else alternative known no
  | .debugger => do
    discard (S.ask .trap)
    return .next
  | .function _ | .empty | .loop | .unsupported => return .next

def alternative (known : Names) : Option Stmt → EvalM V σ (Outcome V)
  | some s => statement known s
  | none => return .next

/-- Statements up to the first that returns. -/
def statements (known : Names) : List Stmt → EvalM V σ (Outcome V)
  | [] => return .next
  | s :: rest => do
    match ← statement known s with
    | .returned value => return .returned value
    | .next =>
      match scopeAfter S.topLevel known s with
      | some known => statements known rest
      | none => return .next

end

/-- Give parameters the arguments of the same places. -/
def bindParams : Nat → List Binding → EvalM V σ Unit
  | _, [] => return
  | i, .name text :: rest => do
    setVar text (S.answerer.argument S.inputs i)
    bindParams (i + 1) rest
  | i, .pattern :: rest => bindParams (i + 1) rest

def body (known : Names) : Body → EvalM V σ (Outcome V)
  | .expression value => return .returned (← S.expression known value)
  | .statements list => do
    S.hoist list
    S.statements (declare S.topLevel (hoisted list) known) list

/-- Nothing is assigned yet. -/
def start (s : σ) : Locals V σ :=
  { vars := fun _ => S.answerer.undefined, completion := S.answerer.undefined, world := s }

end Site

section

variable {V σ : Type} (A : Answerer V σ)

/-- Value of a call of a function: what it returns, or else `undefined`. -/
def evalFunction (inputs : Inputs V) (s : σ) : Function → V × σ
  | .mk _ ps content =>
    let S : Site V σ := { answerer := A, inputs, topLevel := false }
    let known := ps.items.flatMap Binding.names
    let (outcome, locals) := (do S.bindParams 0 ps.items; S.body known content) (S.start s)
    match outcome with
    | .returned value => (value, locals.world)
    | .next => (A.undefined, locals.world)

/-- Value of a script: of the last expression statement that ran. -/
def evalScript (inputs : Inputs V) (s : σ) (list : List Stmt) : V × σ :=
  let S : Site V σ := { answerer := A, inputs, topLevel := true }
  let (outcome, locals) := (do S.hoist list; S.statements [] list) (S.start s)
  match outcome with
  | .returned value => (value, locals.world)
  | .next => (locals.completion, locals.world)

end

end ScriptEngine.Meaning
