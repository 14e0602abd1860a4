import ScriptEngine.Syntax.Reader

/-!
Names and patterns of declarations, parameters and assignments, and the keys of properties.
-/

namespace ScriptEngine.Syntax.Rules

open Read

/-- The default value of a binding, if there is one. -/
def default (rules : Rules) (ctx : Context) : ReadM Unit := do
  if ← eat "=" then discard (rules.assignment ctx.inside)

/-- A binding with an optional default value. -/
def element (rules : Rules) (ctx : Context) : ReadM Binding := do
  let binding ← rules.binding ctx
  rules.default ctx
  return binding

/-- The constant that a key is, or that it computes plainly. -/
def propertyKey (rules : Rules) (ctx : Context) : ReadM Key := do
  match ← token with
  | .word text _ => advance; return .text text
  | .text s => advance; return .text s
  | .number n => advance; return .number n
  | .bigint => advance; return .computed
  | .mark "[" =>
    advance
    let key ← rules.assignment ctx.inside
    expect "]"
    match key with
    | .text s => return .text s
    | .number n => return .number n
    | _ => return .computed
  | _ => failure

/-- Elements of a pattern in brackets. Elements may be left out; a rest element is the last. -/
def bracketPattern (one rest : ReadM Unit) : ReadM Unit := do
  expect "["
  let _ ← many do
    if ← atMark "]" then return none
    if ← eat "," then return some ()
    if ← eat "..." then
      rest
      require (← atMark "]")
    else
      one
      if !(← atMark "]") then expect ","
    return some ()
  expect "]"

/-- Properties of a pattern in braces. A name alone stands for the property of that name. -/
def bracePattern (rules : Rules) (ctx : Context) (one rest : ReadM Unit) : ReadM Unit := do
  expect "\x7b"
  let _ ← many do
    if ← atMark "\x7d" then return none
    if ← eat "..." then
      rest
      require (← atMark "\x7d")
    else
      let short ← match ctx.name? (← token) with
        | some _ => pure ((← peek).token != .mark ":")
        | none => pure false
      if short then
        discard (name ctx)
        rules.default ctx
      else
        discard (rules.propertyKey ctx)
        expect ":"
        one
      if !(← atMark "\x7d") then expect ","
    return some ()
  expect "\x7d"

/-- What a declaration or a parameter binds. -/
def bindingRule (rules : Rules) (ctx : Context) : ReadM Binding := do
  match ← token with
  | .mark "[" =>
    bracketPattern (discard (rules.element ctx)) (discard (rules.binding ctx))
    return .pattern
  | .mark "\x7b" =>
    rules.bracePattern ctx (discard (rules.element ctx)) (discard (name ctx))
    return .pattern
  | _ => return .name (← name ctx)

/-- One target of a pattern: a place, or a pattern again. -/
def patternTarget (rules : Rules) (ctx : Context) : ReadM Unit := do
  let start ← get
  let left ← rules.leftSide ctx.inside true
  match left.target? with
  | some _ => return
  | none =>
    set start
    rules.pattern ctx

/-- Several assignment targets at once. -/
def patternRule (rules : Rules) (ctx : Context) : ReadM Unit := do
  let one := do
    rules.patternTarget ctx
    rules.default ctx
  match ← token with
  | .mark "[" => bracketPattern one (rules.patternTarget ctx)
  | .mark "\x7b" =>
    rules.bracePattern ctx one do
      require (← rules.leftSide ctx.inside true).target?.isSome
  | _ => failure

/-- Parameters in parentheses. -/
def params (rules : Rules) (ctx : Context) : ReadM Params := do
  expect "("
  let items ← many do
    if (← atMark ")") || (← atMark "...") then return none
    let item ← rules.element ctx
    if !(← atMark ")") then expect ","
    return some item
  let rest ← eat "..."
  if rest then discard (rules.binding ctx)
  expect ")"
  return { items, rest }

/-- Statements of a function, without its directives. -/
def functionBody (rules : Rules) (ctx : Context) : ReadM (List Stmt) := do
  expect "\x7b"
  let list ← many do
    if ← atMark "\x7d" then return none
    return some (← rules.statement ctx false)
  expect "\x7d"
  return list.dropWhile Stmt.isDirective

/-- Parameters and body of a function. -/
def functionRest (rules : Rules) (name : Option String) (async generator : Bool) :
    ReadM Function := do
  let ctx := Context.function async generator
  let params ← rules.params ctx
  let list ← rules.functionBody ctx
  return .mk name params (.statements list)

end ScriptEngine.Syntax.Rules
