import ScriptEngine.Heap.Basic
import ScriptEngine.Number.Decimal

/-!
Heap values as the host sees them, and their text. The text is what string conversion, property
keys and the `log` function use.
-/

namespace ScriptEngine

/-- A value decoded from the heap. -/
inductive View where
  | undefined
  | null
  /-- An empty storage word; scripts never see one. -/
  | hole
  | bool (value : Bool)
  /-- A small integer. -/
  | int (value : Int)
  /-- A boxed double. -/
  | number (value : Double)
  | text (value : String)
  | function
  /-- A dense array with its storage length. -/
  | array (length : Nat)
  | object
deriving DecidableEq, Inhabited

/-- Text of a double: whole numbers below `10 ^ 21` with all their digits, others with the fewest
digits that read back. -/
def Double.display (n : Double) : String :=
  if n.isNaN then "NaN"
  else if n.isInfinite then (if n.isNegative then "-" else "") ++ "Infinity"
  else if n.isIntegral && n.truncate.natAbs < 10 ^ 21 then n.renderWhole
  else n.render

def View.display : View → String
  | undefined => "undefined"
  | null => "null"
  | hole => "<hole>"
  | bool true => "true"
  | bool false => "false"
  | int n => toString n
  | number n => n.display
  | text s => s
  | function => "function"
  | array length => s!"[array {length}]"
  | object => "[object Object]"

namespace Heap

/-- Root shapes of values without property storage. -/
def storelessShapes : List RootShape := [.map, .boolean, .oddball, .string, .number, .field, .code]

/-- Whether a value has property storage. -/
def isObject (h : Heap) (value : Word) : Bool :=
  match h.shapeOf? value with
  | none => false
  | some shape => storelessShapes.all fun kind => h.rootShape kind != shape

/-- Whether the shape of a value has a flag. -/
def hasFlag (h : Heap) (value : Word) (flag : ShapeFlags) : Bool :=
  (h.shapeOf? value).any fun shape => (h.shapeFlags shape).contains flag

/-- Whether a value can be called. -/
def isFunction (h : Heap) (value : Word) : Bool := h.hasFlag value .function

/-- Whether a value stores elements by index. -/
def isDense (h : Heap) (value : Word) : Bool := h.hasFlag value .dense

/-- Property storage of an object. -/
def storeOf (h : Heap) (object : Word) : Word := h.read object Layout.Object.store

/-- Number of words in property storage. -/
def storeLength (h : Heap) (store : Word) : Nat :=
  ((h.read store Layout.Store.length).toSmi?.getD 0).toNat

/-- Decode a value. -/
def inspect (h : Heap) (value : Word) : View :=
  match value.toSmi? with
  | some n => .int n
  | none =>
    if value = h.undefined then .undefined
    else if value = h.null then .null
    else if value = h.hole then .hole
    else if value = h.trueValue then .bool true
    else if value = h.falseValue then .bool false
    else match h.text? value with
      | some s => .text s
      | none => match h.double? value with
        | some n => .number n
        | none =>
          if h.isFunction value then .function
          else if h.isDense value then .array (h.storeLength (h.storeOf value))
          else .object

/-- Text of a value. -/
def display (h : Heap) (value : Word) : String := (h.inspect value).display

/-- Truth of a value in a condition. -/
def truthy (h : Heap) (value : Word) : Bool :=
  match h.inspect value with
  | .undefined | .null | .hole => false
  | .bool b => b
  | .int n => n != 0
  | .number n => !n.isZero && !n.isNaN
  | .text s => s != ""
  | .function | .array _ | .object => true

end Heap
end ScriptEngine
