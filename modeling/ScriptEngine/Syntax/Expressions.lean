import ScriptEngine.Syntax.Literals

/-!
Expressions: what members and calls are taken of, operators by strength, and assignments with
the arrow functions and patterns that start like expressions.
-/

namespace ScriptEngine.Syntax

/-- How strongly a binary operator binds. -/
def strength : String → Option Nat
  | "??" => some 1
  | "||" => some 2
  | "&&" => some 3
  | "|" => some 4
  | "^" => some 5
  | "&" => some 6
  | "==" | "!=" | "===" | "!==" => some 7
  | "<" | ">" | "<=" | ">=" | "instanceof" | "in" => some 8
  | "<<" | ">>" | ">>>" => some 9
  | "+" | "-" => some 10
  | "*" | "/" | "%" => some 11
  | _ => none

/-- An operand and the operator after it, waiting for the right operand. -/
structure Waiting where
  left : Expr
  spelling : String
  strength : Nat

namespace Waiting

def apply (w : Waiting) (right : Expr) : Expr :=
  match w.spelling with
  | "&&" => .logical .and w.left right
  | "||" => .logical .or w.left right
  | "??" => .logical .coalesce w.left right
  | spelling => .binary (.ofSpelling spelling) w.left right

/-- Apply the waiting operators that bind at least as strongly as the one that comes. -/
def settle (least : Nat) : List Waiting → Expr → List Waiting × Expr
  | w :: rest, right =>
    if least ≤ w.strength then settle least rest (w.apply right) else (w :: rest, right)
  | [], right => ([], right)

end Waiting

/-- The tree of operands with operators between them. Of equal operators the left one is applied
first. -/
def resolve : List Waiting → Expr → List (String × Nat × Expr) → Expr
  | waiting, operand, (spelling, strength, next) :: rest =>
    let (waiting, left) := Waiting.settle strength waiting operand
    resolve ({ left, spelling, strength } :: waiting) next rest
  | waiting, operand, [] => (Waiting.settle 0 waiting operand).2

namespace Rules

open Read

/-- The binary operator at the current token. -/
def operatorHere (ctx : Context) : ReadM (Option (String × Nat)) := do
  let spelling ← match ← token with
    | .mark spelling => pure spelling
    | .word text false =>
      pure (if text == "instanceof" || (text == "in" && ctx.allowIn) then text else "")
    | _ => pure ""
  return (strength spelling).map (spelling, ·)

/-- Calls and members of private names take part only in chains of members. -/
structure Chain where
  expr : Expr
  /-- Whether a step so far is skipped when its receiver is missing. -/
  optional : Bool := false

/-- The next member, call or tagged template of a chain. -/
def chainStep (rules : Rules) (ctx : Context) (calls : Bool) (chain : Chain) :
    ReadM (Option Chain) := do
  match ← token with
  | .mark "." =>
    advance
    match ← token with
    | .word text _ => advance; return some { chain with expr := .member chain.expr text }
    | .privateName => advance; return some { chain with expr := .privateMember }
    | _ => failure
  | .mark "[" =>
    advance
    let key ← rules.expression ctx.inside
    expect "]"
    return some { chain with expr := .index chain.expr key }
  | .mark "(" =>
    if !calls then return none
    return some { chain with expr := .call chain.expr (← rules.arguments ctx) }
  | .mark "?." =>
    require calls
    advance
    match ← token with
    | .mark "(" => discard (rules.arguments ctx)
    | .mark "[" =>
      advance
      discard (rules.expression ctx.inside)
      expect "]"
    | .word _ _ | .privateName => advance
    | _ => failure
    return some { expr := .unsupported, optional := true }
  | .template _ _ =>
    require !chain.optional
    rules.template ctx true
    return some { chain with expr := .unsupported }
  | _ => return none

/-- A call of a module, or facts about the current one. -/
def importExpr (rules : Rules) (ctx : Context) (calls : Bool) : ReadM Expr := do
  expectWord "import"
  if ← eat "." then
    expectWord "meta"
    return .unsupported
  require calls
  expect "("
  let args ← listTo ")" (rules.assignment ctx.inside)
  require (args.length == 1 || args.length == 2)
  return .unsupported

/-- A new object; without parentheses there are no arguments. -/
def newExpr (rules : Rules) (ctx : Context) : ReadM Expr := do
  expectWord "new"
  if ← eat "." then
    expectWord "target"
    return .unsupported
  let callee ← rules.leftSide ctx false
  if ← atMark "(" then return .new callee (← rules.arguments ctx)
  else
    require !(← atMark "?.")
    return .new callee []

/-- A function after the word for it. -/
def functionExpr (rules : Rules) (async : Bool) : ReadM Expr := do
  expectWord "function"
  let generator ← eat "*"
  let ctx := Context.function async generator
  let name ← match ctx.name? (← token) with
    | some text => advance; pure (some text)
    | none => pure none
  return .function (← rules.functionRest name async generator)

/-- Expressions in parentheses. Empty parentheses and a rest element are the parameters of an
arrow function, as is a comma before the closing mark. -/
def parenthesised (rules : Rules) (ctx : Context) : ReadM Expr := do
  expect "("
  if (← atMark ")") || (← atMark "...") then paramsOnly
  else
    let first ← rules.assignment ctx.inside
    let step (first : Option Expr) : ReadM (Option (Option Expr)) := do
      match first with
      | none => return none
      | some first =>
        if ← eat "," then
          if (← atMark ")") || (← atMark "...") then return some none
          else return some (some (.sequence first (← rules.assignment ctx.inside)))
        else return none
    match ← extend step (some first) with
    | some inner => expect ")"; return .paren inner
    | none => paramsOnly
where
  paramsOnly : ReadM Expr := do
    if ← eat "..." then discard (rules.binding ctx)
    expect ")"
    require (← atMark "=>")
    return .unsupported

/-- A regular expression, after the slash at the current token. -/
def regex (skipped : List Char) : ReadM Expr := do
  match Scan.regex? (skipped ++ (← get).rest) with
  | some rest => moveTo rest; return .unsupported
  | none => failure

/-- Names, literals and everything in brackets. -/
def primary (rules : Rules) (ctx : Context) : ReadM Expr := do
  match ← token with
  | .number n => advance; return .number n
  | .text s => advance; return .text s
  | .bigint => advance; return .unsupported
  | .template _ _ => rules.template ctx false; return .unsupported
  | .privateName =>
    advance
    require (ctx.allowIn && (← atWord "in"))
    return .unsupported
  | .mark "(" => rules.parenthesised ctx
  | .mark "[" => rules.arrayLiteral ctx
  | .mark "\x7b" => rules.objectLiteral ctx
  | .mark "/" => regex []
  | .mark "/=" => regex ['=']
  | .mark "@" => rules.classLiteral ctx; return .unsupported
  | .word "this" false => advance; return .this
  | .word "null" false => advance; return .null
  | .word "true" false => advance; return .bool true
  | .word "false" false => advance; return .bool false
  | .word "function" false => rules.functionExpr false
  | .word "class" false => rules.classLiteral ctx; return .unsupported
  | .word "super" false =>
    advance
    require ((← atMark ".") || (← atMark "[") || (← atMark "("))
    return .unsupported
  | .word "async" false =>
    let next ← peek
    advance
    if next.token == .word "function" false && !next.newline then rules.functionExpr true
    else return .name "async"
  | _ => return .name (← name ctx)

/-- A primary expression with the members and calls taken of it. -/
def leftSideRule (rules : Rules) (ctx : Context) (calls : Bool) : ReadM Expr := do
  let first ← match ← token with
    | .word "new" false => rules.newExpr ctx
    | .word "import" false => rules.importExpr ctx calls
    | _ => rules.primary ctx
  let chain ← extend (rules.chainStep ctx calls) { expr := first }
  return if chain.optional then .unsupported else chain.expr

/-- Whether the current token steps a variable up or down. -/
def atStep : ReadM Bool := return (← atMark "++") || (← atMark "--")

/-- Spelling of the unary operator at the current token. -/
def unaryHere (ctx : Context) : ReadM (Option String) := do
  match ← token with
  | .mark spelling =>
    return if ["+", "-", "!", "~"].contains spelling then some spelling else none
  | .word text false =>
    return if ["typeof", "void", "delete"].contains text || (ctx.await && text == "await")
      then some text else none
  | _ => return none

/-- Expressions after a unary operator. -/
def unaryRule (rules : Rules) (ctx : Context) : ReadM Expr := do
  match ← unaryHere ctx with
  | some spelling =>
    advance
    let operand ← rules.unary ctx
    return if spelling == "await" then .unsupported else .unary (.ofSpelling spelling) operand
  | none =>
    if ← atStep then
      advance
      require (← rules.unary ctx).target?.isSome
      return .unsupported
    else
      let left ← rules.leftSideRule ctx true
      if (← atStep) && !(← newline) then
        require left.target?.isSome
        advance
        return .unsupported
      else return left

/-- Powers bind more strongly than what follows, and their left side has no unary operator. -/
def powerRule (rules : Rules) (ctx : Context) : ReadM Expr := do
  let operator ← unaryHere ctx
  let left ← rules.unaryRule ctx
  if ← eat "**" then
    require operator.isNone
    return .binary (.other "**") left (← rules.power ctx)
  else return left

/-- Operands with binary operators between them. The operator for missing values does not mix
with the logical ones. -/
def binaryExpr (rules : Rules) (ctx : Context) : ReadM Expr := do
  let first ← rules.powerRule ctx
  let rest ← many do
    match ← operatorHere ctx with
    | some (spelling, strength) =>
      advance
      return some (spelling, strength, ← rules.power ctx)
    | none => return none
  let uses (spelling : String) := rest.any fun (s, _, _) => s == spelling
  require !(uses "??" && (uses "||" || uses "&&"))
  return resolve [] first rest

def conditionalExpr (rules : Rules) (ctx : Context) : ReadM Expr := do
  let test ← rules.binaryExpr ctx
  if ← eat "?" then
    let yes ← rules.assignment ctx.inside
    expect ":"
    let no ← rules.assignment ctx
    return .conditional test yes no
  else return test

/-- The arrow and the body of a function without a name. -/
def arrowRest (rules : Rules) (ctx : Context) (async : Bool) (params : Params) :
    ReadM Expr := do
  require !(← newline)
  expect "=>"
  let body ←
    if ← atMark "\x7b" then
      pure (Body.statements (← rules.functionBody (.function async false)))
    else pure (Body.expression (← rules.assignment { ctx with await := async, yield := false }))
  return .function (.mk none params body)

/-- An arrow function. Parameters without parentheses are one name. -/
def arrowFunction (rules : Rules) (ctx : Context) : ReadM Expr := do
  let next ← peek
  let async := (← atWord "async") && next.token != .mark "=>"
  if async then
    advance
    require !(← newline)
  let inner := { ctx with await := async }
  let params ←
    if ← atMark "(" then rules.params inner
    else pure { items := [.name (← name inner)] }
  rules.arrowRest ctx async params

/-- Whether an asynchronous arrow function with a bare parameter starts here. -/
def atAsyncArrow (ctx : Context) : ReadM Bool := do
  if !(← atWord "async") then return false
  let next ← peek
  return !next.newline && (ctx.name? next.token).isSome

/-- A value that a generator gives out. -/
def yieldExpr (rules : Rules) (ctx : Context) : ReadM Expr := do
  expectWord "yield"
  let c ← get
  let ends := match c.token with
    | .mark spelling => [")", "]", "\x7d", ",", ";", ":"].contains spelling
    | .word text _ => text == "in" || text == "of"
    | .finish => true
    | _ => false
  if !(c.newline || ends) then
    discard (eat "*")
    discard (rules.assignment ctx)
  return .unsupported

/-- Spelling of the assignment operator at the current token. -/
def assignHere : ReadM (Option String) := do
  match ← token with
  | .mark spelling =>
    return if ["=", "+=", "-=", "*=", "/=", "%=", "**=", "<<=", ">>=", ">>>=", "&=", "|=", "^=",
        "&&=", "||=", "??="].contains spelling then some spelling else none
  | _ => return none

/-- An expression without commas. What starts as an expression and turns out to be a pattern or
the parameters of an arrow function is read again as such. -/
def assignmentRule (rules : Rules) (ctx : Context) : ReadM Expr := do
  if ctx.yield && (← atWord "yield") then rules.yieldExpr ctx
  else if ← atAsyncArrow ctx then rules.arrowFunction ctx
  else
    let start ← get
    let left ← rules.conditionalExpr ctx
    if ← atMark "=>" then
      set start
      rules.arrowFunction ctx
    else match ← assignHere with
      | none => return left
      | some spelling =>
        match left.target? with
        | some target =>
          advance
          return .assign (.ofSpelling spelling) target (← rules.assignment ctx)
        | none =>
          require (spelling == "=")
          set start
          rules.pattern ctx
          expect "="
          return .assign .plain .other (← rules.assignment ctx)

end Rules
end ScriptEngine.Syntax
