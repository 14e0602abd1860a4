import ScriptEngine.Syntax.Token
import ScriptEngine.Syntax.Tree

/-!
Reading trees from text: the position in the text, the steps that every rule of the grammar is
made of, and the table through which the rules call each other. The rules themselves are plain
functions of such a table; `Rules.grammar` ties them together.
-/

namespace ScriptEngine.Syntax

/-- A position in the text: the token there and what follows it. -/
structure Cursor where
  token : Token
  /-- Whether a line end stands before the token. -/
  newline : Bool
  rest : List Char
  /-- Whether an object literal so far is only valid as a pattern, which it has not become. -/
  pendingPattern : Bool := false
deriving Inhabited

/-- The position of the first token of a text. -/
def Cursor.start (text : List Char) (pendingPattern : Bool) : Option Cursor := do
  let (newline, rest) ← Scan.skip .blank false text
  let (token, rest) ← Scan.read? rest
  return { token, newline, rest, pendingPattern }

/-- A reading step; there is no result when the text is not a script. -/
abbrev ReadM := StateT Cursor Option

/-- Where in a script a rule is applied. -/
structure Context where
  /-- Whether the word `in` is an operator. -/
  allowIn : Bool := true
  /-- Whether the word `await` is an operator. -/
  await : Bool := false
  /-- Whether the word `yield` is an operator. -/
  yield : Bool := false
  inFunction : Bool := false

namespace Context

/-- The outermost statements. -/
def script : Context := { await := true }

/-- The inside of a function. -/
def function (async generator : Bool) : Context :=
  { await := async, yield := generator, inFunction := true }

/-- The inside of brackets. -/
def inside (ctx : Context) : Context := { ctx with allowIn := true }

end Context

namespace Read

/-- Move to the token after a given piece of text. -/
def moveTo (text : List Char) : ReadM Unit := fun c => do
  return ((), ← Cursor.start text c.pendingPattern)

/-- Move past the current token. -/
def advance : ReadM Unit := do moveTo (← get).rest

/-- The position after the current token. -/
def peek : ReadM Cursor := fun c => do return (← Cursor.start c.rest false, c)

def token : ReadM Token := return (← get).token

/-- Whether a line end stands before the current token. -/
def newline : ReadM Bool := return (← get).newline

def atMark (spelling : String) : ReadM Bool := return (← token) == .mark spelling

/-- Whether the current token is a word, written without escapes. -/
def atWord (text : String) : ReadM Bool := return (← token) == .word text false

/-- Move past a mark if it stands here. -/
def eat (spelling : String) : ReadM Bool := do
  if ← atMark spelling then advance; return true else return false

/-- Move past a word if it stands here. -/
def eatWord (text : String) : ReadM Bool := do
  if ← atWord text then advance; return true else return false

def expect (spelling : String) : ReadM Unit := do
  if ← eat spelling then return else failure

def expectWord (text : String) : ReadM Unit := do
  if ← eatWord text then return else failure

def require (condition : Bool) : ReadM Unit := if condition then return else failure

/-- Repeat a step until it gives nothing. Every step moves on, so the characters that are left
bound the number of steps. -/
def many {α : Type} (step : ReadM (Option α)) : ReadM (List α) := do
  loop ((← get).rest.length + 2) []
where
  loop : Nat → List α → ReadM (List α)
    | 0, _ => failure
    | n + 1, acc => do
      match ← step with
      | some a => loop n (a :: acc)
      | none => return acc.reverse

/-- Extend a value until a step gives nothing. -/
def extend {α : Type} (step : α → ReadM (Option α)) (first : α) : ReadM α := do
  loop ((← get).rest.length + 2) first
where
  loop : Nat → α → ReadM α
    | 0, _ => failure
    | n + 1, a => do
      match ← step a with
      | some a => loop n a
      | none => return a

/-- Items up to a closing mark, which is passed too. Commas divide them, and one may follow the
last. -/
def listTo {α : Type} (close : String) (item : ReadM α) : ReadM (List α) := do
  let items ← many do
    if ← atMark close then return none
    let a ← item
    if !(← atMark close) then expect ","
    return some a
  expect close
  return items

/-- A statement ends at a semicolon, or where a line, a block or the script ends. -/
def endStatement : ReadM Unit := do
  if ← eat ";" then return
  let c ← get
  require (c.newline || c.token == .mark "\x7d" || c.token == .finish)

end Read

/-- Words that are never names. -/
def reserved : List String := [
  "break", "case", "catch", "class", "const", "continue", "debugger", "default", "delete", "do",
  "else", "enum", "export", "extends", "false", "finally", "for", "function", "if", "import", "in",
  "instanceof", "new", "null", "return", "super", "switch", "this", "throw", "true", "try",
  "typeof", "var", "void", "while", "with"]

/-- Whether a word is a name here. -/
def Context.isName (ctx : Context) (text : String) : Bool :=
  !(reserved.contains text || (ctx.await && text == "await") || (ctx.yield && text == "yield"))

/-- The name that a token is here. -/
def Context.name? (ctx : Context) : Token → Option String
  | .word text _ => if ctx.isName text then some text else none
  | _ => none

/-- Read a name. -/
def Read.name (ctx : Context) : ReadM String := do
  match ctx.name? (← Read.token) with
  | some text => Read.advance; return text
  | none => failure

/-- The rules that call each other. -/
structure Rules where
  /-- An expression without commas. -/
  assignment : Context → ReadM Expr
  /-- An operand of a binary operator. -/
  power : Context → ReadM Expr
  /-- An operand of a unary operator. -/
  unary : Context → ReadM Expr
  /-- Something that members, and calls if they are wanted, are taken of. -/
  leftSide : Context → (calls : Bool) → ReadM Expr
  binding : Context → ReadM Binding
  /-- Several assignment targets in brackets or braces. -/
  pattern : Context → ReadM Unit
  /-- A statement; one that stands alone as the arm of another is no declaration. -/
  statement : Context → (alone : Bool) → ReadM Stmt

/-- An expression, with commas. -/
def Rules.expression (rules : Rules) (ctx : Context) : ReadM Expr := do
  let first ← rules.assignment ctx
  Read.extend (fun first => do
    if ← Read.eat "," then return some (.sequence first (← rules.assignment ctx))
    else return none) first

/-- A table of rules that read nothing. -/
def Rules.empty : Rules where
  assignment _ := failure
  power _ := failure
  unary _ := failure
  leftSide _ _ := failure
  binding _ := failure
  pattern _ := failure
  statement _ _ := failure

end ScriptEngine.Syntax
