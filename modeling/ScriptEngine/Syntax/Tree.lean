import ScriptEngine.Number.Double

/-!
Trees of scripts. The whole notation is read, but a tree keeps only what can be compiled: a form
outside the compiled language is one leaf, whatever stands inside it.
-/

namespace ScriptEngine.Syntax

/-- Binary operators, by meaning; both spellings of equality mean the strict one. -/
inductive BinarySign where
  | add | sub | mul | lt | le | gt | ge | equal | unequal | instanceOf
  /-- Not compiled. -/
  | other (spelling : String)
deriving DecidableEq, Inhabited

def BinarySign.ofSpelling : String → BinarySign
  | "+" => add
  | "-" => sub
  | "*" => mul
  | "<" => lt
  | "<=" => le
  | ">" => gt
  | ">=" => ge
  | "==" | "===" => equal
  | "!=" | "!==" => unequal
  | "instanceof" => instanceOf
  | spelling => other spelling

inductive LogicalSign where
  | and | or | coalesce
deriving DecidableEq, Inhabited

inductive UnarySign where
  | minus | not | void | delete
  /-- Not compiled. -/
  | other (spelling : String)
deriving DecidableEq, Inhabited

def UnarySign.ofSpelling : String → UnarySign
  | "-" => minus
  | "!" => not
  | "void" => void
  | "delete" => delete
  | spelling => other spelling

/-- Signs that assign: plain, or after an operation with the old value. -/
inductive AssignSign where
  | plain | add | sub | mul
  /-- Not compiled. -/
  | other (spelling : String)
deriving DecidableEq, Inhabited

def AssignSign.ofSpelling : String → AssignSign
  | "=" => plain
  | "+=" => add
  | "-=" => sub
  | "*=" => mul
  | spelling => other spelling

/-- A place that a declaration or a parameter binds. -/
inductive Binding where
  | name (text : String)
  /-- Several names at once, taken out of a value. -/
  | pattern
deriving DecidableEq, Inhabited

/-- Parameters of a function. Default values are read and dropped. -/
structure Params where
  items : List Binding
  /-- Whether the last parameter collects the remaining arguments. -/
  rest : Bool := false
deriving DecidableEq, Inhabited

/-- Key of a property in an object literal. -/
inductive Key where
  | text (s : String)
  | number (n : Double)
  | computed
deriving DecidableEq, Inhabited

mutual

inductive Expr where
  | number (value : Double)
  | text (value : String)
  | bool (value : Bool)
  | null
  | name (text : String)
  | this
  | binary (sign : BinarySign) (left right : Expr)
  | logical (sign : LogicalSign) (left right : Expr)
  | unary (sign : UnarySign) (operand : Expr)
  | assign (sign : AssignSign) (target : Target) (value : Expr)
  | call (callee : Expr) (args : List Element)
  | new (callee : Expr) (args : List Element)
  | member (object : Expr) (name : String)
  | index (object key : Expr)
  /-- A member that only its class sees. -/
  | privateMember
  | object (properties : List Property)
  | array (elements : List Element)
  | function (f : Function)
  | conditional (test yes no : Expr)
  /-- Parentheses count: a call of a member in parentheses has no receiver. -/
  | paren (inner : Expr)
  | sequence (first second : Expr)
  /-- A form outside the compiled language. -/
  | unsupported

/-- Element of an array literal or of an argument list. -/
inductive Element where
  | item (value : Expr)
  | hole
  | spread

inductive Property where
  | entry (key : Key) (value : Expr)
  | spread

/-- Left side of an assignment. -/
inductive Target where
  | name (text : String)
  | member (object : Expr) (name : String)
  | index (object key : Expr)
  /-- Several places at once, or a private member. -/
  | other

inductive Function where
  | mk (name : Option String) (params : Params) (body : Body)

inductive Body where
  | statements (list : List Stmt)
  | expression (value : Expr)

inductive Stmt where
  | expression (value : Expr)
  | declare (items : List Declarator)
  | ret (value : Option Expr)
  | block (body : List Stmt)
  | branch (test : Expr) (yes : Stmt) (no : Option Stmt)
  | function (f : Function)
  | empty
  | debugger
  | loop
  /-- A form outside the compiled language. -/
  | unsupported

inductive Declarator where
  | mk (binding : Binding) (value : Option Expr)

end

instance : Inhabited Expr := ⟨.null⟩
instance : Inhabited Stmt := ⟨.empty⟩

/-- The places that may be assigned to; parentheses around them do not count. -/
def Expr.target? : Expr → Option Target
  | .name spelling => some (.name spelling)
  | .member base key => some (.member base key)
  | .index base key => some (.index base key)
  | .privateMember => some .other
  | .paren inner => inner.target?
  | _ => none

/-- Whether a statement is a directive: a string literal on its own. -/
def Stmt.isDirective : Stmt → Bool
  | .expression (.text _) => true
  | _ => false

end ScriptEngine.Syntax
