import ScriptEngine.Syntax.Patterns

/-!
Literals that hold other expressions: arrays, objects, templates and classes.
-/

namespace ScriptEngine.Syntax.Rules

open Read

/-- An element or an argument. -/
def spreadOrItem (rules : Rules) (ctx : Context) : ReadM Element := do
  if ← eat "..." then
    discard (rules.assignment ctx.inside)
    return .spread
  else return .item (← rules.assignment ctx.inside)

/-- Arguments in parentheses. -/
def arguments (rules : Rules) (ctx : Context) : ReadM (List Element) := do
  expect "("
  listTo ")" (rules.spreadOrItem ctx)

/-- Elements in brackets; a comma alone leaves one out. -/
def arrayLiteral (rules : Rules) (ctx : Context) : ReadM Expr := do
  expect "["
  let elements ← many do
    if ← atMark "]" then return none
    if ← eat "," then return some .hole
    let item ← rules.spreadOrItem ctx
    if !(← atMark "]") then expect ","
    return some item
  expect "]"
  return .array elements

/-- Whether a token can start the key of a property. -/
def startsKey : Token → Bool
  | .word _ _ | .text _ | .number _ | .bigint | .privateName => true
  | .mark spelling => spelling == "["
  | _ => false

/-- What comes before the key of a method. -/
structure Modifiers where
  async : Bool := false
  generator : Bool := false
  getter : Bool := false
  setter : Bool := false

/-- Words and marks before a key. A word is a modifier if a key follows it. -/
def modifiers : ReadM Modifiers := do
  let next ← peek
  if (← atWord "async") && (startsKey next.token || next.token == .mark "*") && !next.newline then
    advance
    return { async := true, generator := ← eat "*" }
  else if ← eat "*" then return { generator := true }
  else if (← atWord "get") && startsKey next.token then
    advance
    return { getter := true }
  else if (← atWord "set") && startsKey next.token then
    advance
    return { setter := true }
  else return {}

def Modifiers.isPlain (m : Modifiers) : Bool := !(m.async || m.generator || m.getter || m.setter)

/-- Parameters and body of a method. A getter has no parameter and a setter has one. -/
def method (rules : Rules) (m : Modifiers) : ReadM Function := do
  let f ← rules.functionRest none m.async m.generator
  let .mk _ params _ := f
  if m.getter then require (params.items.isEmpty && !params.rest)
  if m.setter then require (params.items.length == 1 && !params.rest)
  return f

/-- One property of an object literal. A name alone stands for the variable of that name; with a
default value, it only makes sense in a pattern. -/
def property (rules : Rules) (ctx : Context) : ReadM Property := do
  if ← eat "..." then
    discard (rules.assignment ctx.inside)
    return .spread
  let m ← modifiers
  let short := ctx.name? (← token)
  let key ← rules.propertyKey ctx
  if (← atMark "(") || !m.isPlain then return .entry key (.function (← rules.method m))
  else if ← eat ":" then return .entry key (← rules.assignment ctx.inside)
  else match short with
    | none => failure
    | some text =>
      if ← eat "=" then
        discard (rules.assignment ctx.inside)
        modify ({ · with pendingPattern := true })
      return .entry key (.name text)

def objectLiteral (rules : Rules) (ctx : Context) : ReadM Expr := do
  expect "\x7b"
  return .object (← listTo "\x7d" (rules.property ctx))

/-- The rest of a template after its first piece. A template without a tag has only well-formed
escapes. -/
def template (rules : Rules) (ctx : Context) (tagged : Bool) : ReadM Unit := do
  match ← token with
  | .template closed sound =>
    require (tagged || sound)
    let step (closed : Bool) : ReadM (Option Bool) := do
      if closed then return none
      discard (rules.expression ctx.inside)
      require (← atMark "\x7d")
      match Scan.templatePiece (← get).rest with
      | some (closed, sound, rest) =>
        require (tagged || sound)
        moveTo rest
        return some closed
      | none => failure
    advance
    discard (extend step closed)
  | _ => failure

/-- A member of a class, between its braces. -/
def classMember (rules : Rules) (ctx : Context) : ReadM Unit := do
  if ← eat ";" then return
  let _ ← many do
    if ← eat "@" then return some (← rules.leftSide ctx true) else return none
  let next ← peek
  if (← atWord "static") && next.token == .mark "\x7b" then
    advance
    discard (rules.functionBody { await := true })
  else
    if (← atWord "static") && (startsKey next.token || next.token == .mark "*") then advance
    let next ← peek
    if (← atWord "accessor") && startsKey next.token && !next.newline then advance
    let m ← modifiers
    match ← token with
    | .privateName => advance
    | _ => discard (rules.propertyKey ctx)
    if (← atMark "(") || !m.isPlain then discard (rules.method m)
    else
      if ← eat "=" then discard (rules.assignment {})
      endStatement

/-- What follows the name of a class. -/
def classRest (rules : Rules) (ctx : Context) : ReadM Unit := do
  if ← eatWord "extends" then discard (rules.leftSide ctx true)
  expect "\x7b"
  let _ ← many do
    if ← atMark "\x7d" then return none
    return some (← rules.classMember ctx)
  expect "\x7d"

/-- A class, whose name may be left out. -/
def classLiteral (rules : Rules) (ctx : Context) : ReadM Unit := do
  let _ ← many do
    if ← eat "@" then return some (← rules.leftSide ctx true) else return none
  expectWord "class"
  if !(← atWord "extends") then
    if (ctx.name? (← token)).isSome then advance
  rules.classRest ctx

end ScriptEngine.Syntax.Rules
