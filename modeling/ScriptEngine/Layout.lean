/-!
Where things lie inside heap objects: byte offsets of fields from the start of an object, and
allocation sizes. Every object starts with a word that points at its shape.
-/

namespace ScriptEngine.Layout

/-- Powers of numbers, the same wherever they are written. -/
@[default_instance 10001]
instance (priority := 1100) instPower {α : Type} [NatPow α] : Pow α Nat := instPowNat

/-- Bytes in a machine word. -/
def word : Nat := 8

/-- Addresses and sizes are 64-bit quantities: they wrap. -/
def wrap (n : Nat) : Nat := n % 2 ^ 64

/-- Distance from one address up to another. -/
def distance (low high : Nat) : Nat := wrap (high + (2 ^ 64 - wrap low))

/-- Round a size up to whole words. -/
def align (size : Nat) : Nat := wrap (size + 7) / 8 * 8

theorem wrap_of_lt {n : Nat} (h : n < 2 ^ 64) : wrap n = n := Nat.mod_eq_of_lt h

/-- Between addresses in order, the distance is the difference. -/
theorem distance_of_le {low high : Nat} (h : low ≤ high) (hh : high < 2 ^ 64) :
    distance low high = high - low := by
  unfold distance wrap
  omega

/-- Pointer to the shape, in every object. -/
def shape : Nat := 0

namespace Shape
/-- Small integer with the flag bits. -/
def flags : Nat := 8
/-- Prototype object, or `null`. -/
def proto : Nat := 16
def size : Nat := 24
end Shape

namespace Object
/-- Property storage. -/
def store : Nat := 8
def size : Nat := 16
/-- Items that a fresh object has room for. -/
def minItems : Nat := 4
end Object

namespace Function
/-- Property storage, where every object has it. -/
def store : Nat := 8
def code : Nat := 16
/-- Shape of the objects that the function constructs. -/
def instanceShape : Nat := 24
def size : Nat := 32
end Function

namespace Store
/-- Small integer: number of storage words. -/
def length : Nat := 8
/-- First storage word. -/
def items : Nat := 16
/-- Allocation size for a number of storage words. -/
def size (words : Nat) : Nat := wrap (items + words * word)
end Store

namespace Item
/-- Words in a key with its value. -/
def words : Nat := 2
/-- Bytes in a key with its value. -/
def bytes : Nat := 16
/-- Offset of the value behind its key. -/
def value : Nat := 8
end Item

namespace Code
/-- Entry address, as a bare word. -/
def entry : Nat := 8
/-- Small integer: length of the machine code. -/
def length : Nat := 16
/-- Small integer: index of the reference record. -/
def record : Nat := 24
def size : Nat := 32
end Code

namespace Text
/-- Small integer: length in bytes. -/
def length : Nat := 8
/-- First byte of the text. -/
def data : Nat := 16
end Text

namespace Boxed
/-- Bits of the double, as a bare word. -/
def value : Nat := 8
def size : Nat := 16
end Boxed

namespace Oddball
/-- Small integer that tells oddballs apart. -/
def value : Nat := 8
def size : Nat := 16
end Oddball

end ScriptEngine.Layout
