import ScriptEngine.Number.Decimal
import ScriptEngine.Shape
import ScriptEngine.Text.Quoted

/-!
Constants that instructions carry, and their text in dumps.
-/

namespace ScriptEngine

inductive BinaryOp where
  | add | sub | mul | lt | le | strictEq | strictNe | instanceOf
deriving DecidableEq, Inhabited

namespace BinaryOp

/-- Every operator, in the order in which their stubs are declared. -/
def all : List BinaryOp := [add, sub, mul, lt, le, strictEq, strictNe, instanceOf]

/-- Spelling in source text; stubs are named by it. -/
def symbol : BinaryOp → String
  | add => "+"
  | sub => "-"
  | mul => "*"
  | lt => "<"
  | le => "<="
  | strictEq => "==="
  | strictNe => "!=="
  | instanceOf => "instanceof"

def ofSymbol? (text : String) : Option BinaryOp := all.find? (·.symbol == text)

end BinaryOp

inductive UnaryOp where
  | neg | not
deriving DecidableEq, Inhabited

namespace UnaryOp

/-- Spelling in source text; stubs are named by it. -/
def symbol : UnaryOp → String
  | neg => "-"
  | not => "!"

def ofSymbol? (text : String) : Option UnaryOp := [neg, not].find? (·.symbol == text)

end UnaryOp

/-- Signed comparison of two words. -/
inductive Cond where
  | eq | ne | lt | le | gt | ge
deriving DecidableEq, Inhabited

namespace Cond

def name : Cond → String
  | eq => "Eq"
  | ne => "Ne"
  | lt => "Lt"
  | le => "Le"
  | gt => "Gt"
  | ge => "Ge"

/-- Whether two words compare so, read with their signs. -/
def holds (cond : Cond) (a b : Word) : Bool :=
  match cond with
  | eq => a.signed = b.signed
  | ne => a.signed ≠ b.signed
  | lt => a.signed < b.signed
  | le => a.signed ≤ b.signed
  | gt => b.signed < a.signed
  | ge => b.signed ≤ a.signed

end Cond

/-- What an inline cache compares besides the shape of the receiver. -/
inductive CacheKind where
  /-- The key too. -/
  | normal
  /-- Nothing: the key at the site is fixed. -/
  | fixed
deriving DecidableEq, Inhabited

/-- Name of the dispatch code. -/
def CacheKind.name : CacheKind → String
  | normal => "getPropertySlot"
  | fixed => "getFixedPropertySlot"

inductive Const where
  /-- A bare machine word: an offset, a count or a mask. -/
  | raw (n : Int)
  /-- A small integer. -/
  | smi (n : Int)
  | number (n : Double)
  | text (s : String)
  | bool (b : Bool)
  | undefined
  | null
  | hole
  /-- An object that the code keeps alive. -/
  | heap (value : Word)
  /-- An object that the code does not own. -/
  | weak (value : Word)
  /-- The function of a stub. -/
  | stub (name : String)
  /-- The number of a host callback. -/
  | callback (name : String)
  /-- The code of another function of the same script. -/
  | function (index : Nat)
  | shape (kind : RootShape)
  /-- A new inline cache for the site. -/
  | cache (kind : CacheKind)
  | cond (c : Cond)
  | binary (op : BinaryOp)
  | unary (op : UnaryOp)
deriving DecidableEq, Inhabited

namespace Const

def raw? : Const → Option Int
  | raw n => some n
  | _ => none

def render : Const → String
  | raw n => toString n
  | smi n => s!"smi {n}"
  | number n => "num " ++ n.render
  | text s => Text.quoted s
  | bool true => "true"
  | bool false => "false"
  | undefined => "undefined"
  | null => "null"
  | hole => "hole"
  | heap value => "heap " ++ value.debug
  | weak value => "weak " ++ value.debug
  | stub name => "stub " ++ name
  | callback name => "runtime " ++ name
  | function index => s!"fn #{index}"
  | shape kind => "map " ++ kind.name
  | cache kind => "ic " ++ kind.name
  | cond c => c.name
  | binary op => op.symbol
  | unary op => op.symbol

end Const
end ScriptEngine
