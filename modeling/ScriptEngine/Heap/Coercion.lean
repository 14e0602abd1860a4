import ScriptEngine.Heap.View
import ScriptEngine.Text.Quoted

/-!
Conversions and comparisons of values that need no allocation.
-/

namespace ScriptEngine.Heap

/-- Numeric value of a string: blanks around it do not count, and nothing is zero. -/
def numberOfText (text : String) : Double :=
  match Text.trim text.toList with
  | [] => .zero false
  | trimmed => (Decimal.read? trimmed).getD .nan

/-- Numeric value of anything. -/
def toDouble (h : Heap) (value : Word) : Double :=
  match h.double? value with
  | some n => n
  | none =>
    if value = h.trueValue then .ofInt 1
    else if value = h.falseValue ∨ value = h.null then .zero false
    else match h.text? value with
      | some s => numberOfText s
      | none => .nan

/-- Order of values: strings by their bytes, all else by number. -/
def compare? (h : Heap) (left right : Word) : Option Ordering :=
  match h.text? left, h.text? right with
  | some a, some b => some (compareOfLessAndEq a b)
  | _, _ => (h.toDouble left).compare? (h.toDouble right)

/-- Equality without conversion: numbers by value, strings by text, all else by identity. -/
def strictEquals (h : Heap) (left right : Word) : Bool :=
  match h.double? left, h.double? right with
  | some a, some b => a.equals b
  | _, _ =>
    match h.text? left, h.text? right with
    | some a, some b => a == b
    | _, _ => left == right

end ScriptEngine.Heap
