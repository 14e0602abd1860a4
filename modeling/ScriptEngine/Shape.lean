import Std.Data.TreeMap
import ScriptEngine.Word

/-!
Shapes, the hidden classes of objects. A shape holds flags and a prototype, and stands for the
order in which the keys of its objects were added. Shapes are never changed: adding a key moves
an object along a transition to a child shape.
-/

namespace ScriptEngine

/-- Flag bits of a shape. -/
structure ShapeFlags where
  bits : Nat
deriving DecidableEq, Inhabited

namespace ShapeFlags

def none : ShapeFlags := ⟨0⟩

/-- Objects of the shape can be called. -/
def function : ShapeFlags := ⟨1⟩

/-- Objects of the shape store elements by index. -/
def dense : ShapeFlags := ⟨2⟩

/-- Some properties of the objects need the host. -/
def accessor : ShapeFlags := ⟨4⟩

/-- The shape is shared through transitions and may be cached. -/
def transition : ShapeFlags := ⟨8⟩

/-- Whether every flag of `other` is set. -/
def contains (flags other : ShapeFlags) : Bool := flags.bits &&& other.bits == other.bits

def union (a b : ShapeFlags) : ShapeFlags := ⟨a.bits ||| b.bits⟩

/-- The flags that `other` does not have: the union less `other`. -/
def without (flags other : ShapeFlags) : ShapeFlags := ⟨(flags.bits ||| other.bits) ^^^ other.bits⟩

end ShapeFlags

/-- The shapes that exist from the start. -/
inductive RootShape where
  | map | boolean | oddball | string | number | field | code | object | array | function | global
deriving DecidableEq, Inhabited, Repr

namespace RootShape

/-- Every root shape, in the order of creation. -/
def all : List RootShape :=
  [map, boolean, oddball, string, number, field, code, object, array, function, global]

def index (kind : RootShape) : Nat := kind.ctorIdx

def flags : RootShape → ShapeFlags
  | object | global => .transition
  | array => .dense
  | function => (ShapeFlags.function.union .accessor).union .transition
  | _ => .none

def name : RootShape → String
  | map => "map"
  | boolean => "boolean"
  | oddball => "oddball"
  | string => "string"
  | number => "number"
  | field => "field"
  | code => "code"
  | object => "object"
  | array => "array"
  | function => "function"
  | global => "global"

def ofName? (text : String) : Option RootShape := all.find? (·.name == text)

end RootShape

/-- The tree of transitions: which shape an object gets when a key is added to it. -/
structure Transitions where
  /-- Children by shape, then by key. -/
  children : Std.TreeMap Word (Std.TreeMap Word Word) := ∅
  /-- Number of keys that a shape reached by transitions stands for. -/
  keyCounts : Std.TreeMap Word Nat := ∅
deriving Inhabited

namespace Transitions

def child? (t : Transitions) (shape key : Word) : Option Word := (t.children.getD shape ∅)[key]?

/-- Keys that an object of the shape holds; a shape that no transition leads to stands for none. -/
def keyCount (t : Transitions) (shape : Word) : Nat := t.keyCounts.getD shape 0

def insert (t : Transitions) (shape key child : Word) : Transitions where
  children := t.children.insert shape ((t.children.getD shape ∅).insert key child)
  keyCounts := t.keyCounts.insert child (t.keyCount shape + 1)

end Transitions
end ScriptEngine
