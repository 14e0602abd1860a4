import ScriptEngine.Syntax.Expressions

/-!
Statements, declarations and what modules give and take.
-/

namespace ScriptEngine.Syntax

namespace Rules

open Read

/-- Names and patterns that a declaration binds, with their values. -/
def declarators (rules : Rules) (ctx : Context) : ReadM (List Declarator) := do
  let one : ReadM Declarator := do
    let binding ← rules.binding ctx
    let value ← if ← eat "=" then pure (some (← rules.assignment ctx)) else pure none
    return .mk binding value
  let first ← one
  let rest ← many do
    if ← eat "," then return some (← one) else return none
  return first :: rest

/-- Whether a declaration may stand without being the head of a loop: a pattern needs a value,
and so does a name that stays constant. -/
def isComplete (constant : Bool) : Declarator → Bool
  | .mk _ (some _) => true
  | .mk .pattern none => false
  | .mk (.name _) none => !constant

/-- A declaration after its first word. -/
def declaration (rules : Rules) (ctx : Context) (constant : Bool) : ReadM Stmt := do
  let items ← rules.declarators ctx.inside
  require (items.all (isComplete constant))
  endStatement
  return .declare items

/-- The arm of another statement. -/
def arm (rules : Rules) (ctx : Context) : ReadM Stmt := rules.statement ctx true

/-- A condition in parentheses. -/
def condition (rules : Rules) (ctx : Context) : ReadM Expr := do
  expect "("
  let e ← rules.expression ctx.inside
  expect ")"
  return e

/-- Statements in braces. -/
def blockBody (rules : Rules) (ctx : Context) : ReadM (List Stmt) := do
  expect "\x7b"
  let body ← many do
    if ← atMark "\x7d" then return none
    return some (← rules.statement ctx false)
  expect "\x7d"
  return body

def branch (rules : Rules) (ctx : Context) : ReadM Stmt := do
  expectWord "if"
  let test ← rules.condition ctx
  let yes ← rules.arm ctx
  let no ← if ← eatWord "else" then pure (some (← rules.arm ctx)) else pure none
  return .branch test yes no

/-- Whether a word starts a declaration that the head of a loop may hold. -/
def atLoopDeclaration (ctx : Context) : ReadM Bool := do
  if (← atWord "var") || (← atWord "const") then return true
  if !(← atWord "let") then return false
  let next := (← peek).token
  return (ctx.name? next).isSome || next == .mark "[" || next == .mark "\x7b"

/-- The rest of a loop over the members or elements of a value, from the word that says so. -/
def loopOver (rules : Rules) (ctx : Context) (elementsOnly : Bool) : ReadM Unit := do
  if ← eatWord "of" then discard (rules.assignment ctx.inside)
  else
    require !elementsOnly
    expectWord "in"
    discard (rules.expression ctx.inside)

/-- Condition and step of a counting loop. -/
def loopSteps (rules : Rules) (ctx : Context) : ReadM Unit := do
  expect ";"
  if !(← atMark ";") then discard (rules.expression ctx.inside)
  expect ";"
  if !(← atMark ")") then discard (rules.expression ctx.inside)

/-- Between the parentheses of a loop. -/
def loopHead (rules : Rules) (ctx : Context) (elementsOnly : Bool) : ReadM Unit := do
  let inner := { ctx with allowIn := false }
  if ← atMark ";" then
    require !elementsOnly
    rules.loopSteps ctx
  else if ← atLoopDeclaration ctx then
    let constant ← atWord "const"
    advance
    let items ← rules.declarators inner
    if (← atWord "of") || (← atWord "in") then
      match items with
      | [.mk _ none] => rules.loopOver ctx elementsOnly
      | _ => failure
    else
      require (!elementsOnly && items.all (isComplete constant))
      rules.loopSteps ctx
  else
    let start ← get
    let left ← rules.expression inner
    if (← atWord "of") || (← atWord "in") then
      if left.target?.isNone then
        set start
        rules.pattern ctx
      rules.loopOver ctx elementsOnly
    else
      require !elementsOnly
      rules.loopSteps ctx

def forLoop (rules : Rules) (ctx : Context) : ReadM Stmt := do
  expectWord "for"
  let elementsOnly ← if ctx.await then eatWord "await" else pure false
  expect "("
  rules.loopHead ctx elementsOnly
  expect ")"
  discard (rules.arm ctx)
  return .loop

def whileLoop (rules : Rules) (ctx : Context) : ReadM Stmt := do
  expectWord "while"
  discard (rules.condition ctx)
  discard (rules.arm ctx)
  return .loop

/-- A semicolon after the condition may be left out. -/
def doLoop (rules : Rules) (ctx : Context) : ReadM Stmt := do
  expectWord "do"
  discard (rules.arm ctx)
  expectWord "while"
  discard (rules.condition ctx)
  discard (eat ";")
  return .loop

def switchBody (rules : Rules) (ctx : Context) : ReadM Unit := do
  expect "\x7b"
  let _ ← many do
    if ← atMark "\x7d" then return none
    if ← eatWord "case" then discard (rules.expression ctx.inside) else expectWord "default"
    expect ":"
    let body ← many do
      if (← atMark "\x7d") || (← atWord "case") || (← atWord "default") then return none
      return some (← rules.statement ctx false)
    return some body
  expect "\x7d"

def tryRest (rules : Rules) (ctx : Context) : ReadM Unit := do
  discard (rules.blockBody ctx)
  let handler ← eatWord "catch"
  if handler then
    if ← eat "(" then
      discard (rules.binding ctx)
      expect ")"
    discard (rules.blockBody ctx)
  let final ← eatWord "finally"
  if final then discard (rules.blockBody ctx)
  require (handler || final)

/-- A function declaration; one that stands alone is neither asynchronous nor a generator. -/
def functionDecl (rules : Rules) (ctx : Context) (alone : Bool) : ReadM Stmt := do
  let async ← eatWord "async"
  expectWord "function"
  let generator ← eat "*"
  require !(alone && (async || generator))
  let text ← name ctx
  return .function (← rules.functionRest (some text) async generator)

/-- A name of something that modules exchange. -/
def moduleName : ReadM Unit := do
  match ← token with
  | .word _ _ | .text _ => advance
  | _ => failure

/-- The module that something is taken from, and what is known of it. -/
def fromModule (rules : Rules) : ReadM Unit := do
  match ← token with
  | .text _ => advance
  | _ => failure
  if ← eatWord "with" then
    expect "\x7b"
    discard (listTo "\x7d" (do
      discard (rules.propertyKey {})
      expect ":"
      moduleName : ReadM Unit))

/-- Names in braces, some of them renamed. The second name of each is bound here or given out. -/
def moduleNames : ReadM Unit := do
  expect "\x7b"
  discard (listTo "\x7d" (do
    moduleName
    if ← eatWord "as" then moduleName : ReadM Unit))

def importDecl (rules : Rules) (ctx : Context) : ReadM Stmt := do
  expectWord "import"
  match ← token with
  | .text _ => rules.fromModule
  | _ =>
    let more ← match ctx.name? (← token) with
      | some _ => advance; eat ","
      | none => pure true
    if more then
      if ← eat "*" then
        expectWord "as"
        discard (name ctx)
      else moduleNames
    expectWord "from"
    rules.fromModule
  endStatement
  return .unsupported

def exportDecl (rules : Rules) (ctx : Context) : ReadM Stmt := do
  expectWord "export"
  if ← eat "*" then
    if ← eatWord "as" then moduleName
    expectWord "from"
    rules.fromModule
    endStatement
  else if ← atMark "\x7b" then
    moduleNames
    if ← eatWord "from" then rules.fromModule
    endStatement
  else if ← eatWord "default" then
    let next ← peek
    if (← atWord "function") ||
        ((← atWord "async") && next.token == .word "function" false && !next.newline) then
      discard (rules.functionExpr (← eatWord "async"))
    else if (← atWord "class") || (← atMark "@") then rules.classLiteral ctx
    else
      discard (rules.assignment ctx.inside)
      endStatement
  else
    let declares ← ["var", "let", "const", "function", "class", "async"].anyM (atWord ·)
    require (declares || (← atMark "@"))
    discard (rules.statement ctx false)
  return .unsupported

/-- An expression as a statement, or the label of another statement. -/
def expressionStmt (rules : Rules) (ctx : Context) : ReadM Stmt := do
  let labelled ← match ctx.name? (← token) with
    | some _ => pure ((← peek).token == .mark ":")
    | none => pure false
  if labelled then
    advance
    expect ":"
    discard (rules.arm ctx)
    return .unsupported
  else
    let e ← rules.expression ctx.inside
    endStatement
    return .expression e

/-- Whether the word `let` here starts a declaration. -/
def startsLet (alone : Bool) (next : Token) : Bool :=
  match next with
  | .mark spelling =>
    spelling == "[" || (!alone && spelling == "\x7b")
  | .word text _ => !alone && text != "in" && text != "instanceof"
  | _ => false

/-- The label after a jump, on the same line. -/
def jumpRest (ctx : Context) : ReadM Stmt := do
  if !(← newline) && (ctx.name? (← token)).isSome then advance
  endStatement
  return .unsupported

def wordStatement (rules : Rules) (ctx : Context) (alone : Bool) (text : String) :
    ReadM Stmt := do
  let next ← peek
  match text with
  | "var" => advance; rules.declaration ctx false
  | "const" =>
    require !alone
    advance
    rules.declaration ctx true
  | "let" =>
    if startsLet alone next.token then
      require !alone
      advance
      rules.declaration ctx false
    else rules.expressionStmt ctx
  | "using" =>
    if !next.newline && (ctx.name? next.token).isSome then
      require !alone
      advance
      rules.declaration ctx true
    else rules.expressionStmt ctx
  | "function" => rules.functionDecl ctx alone
  | "async" =>
    if next.token == .word "function" false && !next.newline then rules.functionDecl ctx alone
    else rules.expressionStmt ctx
  | "class" =>
    require (!alone && (ctx.name? next.token).isSome)
    rules.classLiteral ctx
    return .unsupported
  | "if" => rules.branch ctx
  | "for" => rules.forLoop ctx
  | "while" => rules.whileLoop ctx
  | "do" => rules.doLoop ctx
  | "return" =>
    require ctx.inFunction
    advance
    let c ← get
    if c.newline || c.token == .mark ";" || c.token == .mark "\x7d" || c.token == .finish then
      endStatement
      return .ret none
    else
      let value ← rules.expression ctx.inside
      endStatement
      return .ret (some value)
  | "break" | "continue" => advance; jumpRest ctx
  | "throw" =>
    advance
    require !(← newline)
    discard (rules.expression ctx.inside)
    endStatement
    return .unsupported
  | "debugger" => advance; endStatement; return .debugger
  | "switch" =>
    advance
    discard (rules.condition ctx)
    rules.switchBody ctx
    return .unsupported
  | "try" => advance; rules.tryRest ctx; return .unsupported
  | "with" =>
    advance
    discard (rules.condition ctx)
    discard (rules.arm ctx)
    return .unsupported
  | "import" =>
    if next.token == .mark "(" || next.token == .mark "." then rules.expressionStmt ctx
    else rules.importDecl ctx
  | "export" => rules.exportDecl ctx
  | _ => rules.expressionStmt ctx

def statementRule (rules : Rules) (ctx : Context) (alone : Bool) : ReadM Stmt := do
  match ← token with
  | .mark "\x7b" => return .block (← rules.blockBody ctx)
  | .mark ";" => advance; return .empty
  | .mark "@" =>
    let _ ← many do
      if ← eat "@" then return some (← rules.leftSide ctx true) else return none
    if ← atWord "export" then rules.exportDecl ctx
    else
      rules.classLiteral ctx
      return .unsupported
  | .word text false => rules.wordStatement ctx alone text
  | _ => rules.expressionStmt ctx

/-- The rules of the grammar, on rules for the parts. -/
def productions (rules : Rules) : Rules where
  assignment := rules.assignmentRule
  power := rules.powerRule
  unary := rules.unaryRule
  leftSide := rules.leftSideRule
  binding := rules.bindingRule
  pattern := rules.patternRule
  statement := rules.statementRule

/-- The grammar, for trees of a bounded depth. -/
def grammar (depth : Nat) : Rules := Nat.repeat productions depth empty

end Rules

/-- The statements of a script, without its directives. -/
def parse? (text : String) : Option (List Stmt) := do
  let chars := Scan.dropShebang text.toList
  -- Two rules at most apply before a token is used up.
  let rules := Rules.grammar (2 * chars.length + 16)
  let step : ReadM (Option Stmt) := do
    if (← Read.token) == .finish then return none
    return some (← rules.statement .script false)
  let (list, last) ← (Read.many step).run (← Cursor.start chars false)
  if last.pendingPattern then none else some (list.dropWhile Stmt.isDirective)

end ScriptEngine.Syntax
