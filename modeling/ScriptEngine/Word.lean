import Std.Data.TreeMap
import ScriptEngine.Layout

/-!
Tagged machine words. The low bit tells small integers from heap pointers: an even word is an
integer of 63 bits, shifted left by one; an odd word is an address with the bit set.
Everything that scripts, generated code and the heap pass around is such a word.
-/

namespace ScriptEngine

/-- A machine word of 64 bits, read as a tagged value. -/
structure Word where
  bits : UInt64
deriving DecidableEq, Inhabited

namespace Word

/-- Largest integer that fits beside the tag. -/
def smiMax : Int := 2 ^ 62 - 1

/-- Smallest integer that fits beside the tag. -/
def smiMin : Int := -(2 ^ 62)

/-- The word whose bits are those of `n` in two's complement. -/
def ofInt (n : Int) : Word := ⟨UInt64.ofInt n⟩

/-- The word whose bits, read without sign, are `n` modulo `2 ^ 64`. -/
def ofNat (n : Nat) : Word := ⟨UInt64.ofNat n⟩

/-- The bits read without sign. -/
def toNat (w : Word) : Nat := w.bits.toNat

/-- Words in the order of their bits, for tables. -/
instance : Ord Word := ⟨compareOn toNat⟩

instance : Std.TransOrd Word := inferInstanceAs (Std.TransCmp (compareOn toNat))

instance : Std.LawfulEqOrd Word where
  eq_of_compare {a b} h := by
    have hbits : a.bits = b.bits := UInt64.toNat_inj.mp (Nat.compare_eq_eq.mp h)
    cases a
    cases b
    simpa using hbits

/-- The bits read in two's complement. -/
def signed (w : Word) : Int := w.bits.toInt64.toInt

/-- The small integer `n`; the top bit is lost when `n` is out of range. -/
def smi (n : Int) : Word := ofInt (2 * n)

/-- The small integer `n`, if it fits in 63 bits. -/
def ofSmi? (n : Int) : Option Word :=
  if smiMin ≤ n ∧ n ≤ smiMax then some (smi n) else none

/-- A pointer to `address`. -/
def pointer (address : Nat) : Word := ⟨UInt64.ofNat address ||| 1⟩

def isSmi (w : Word) : Bool := w.bits &&& 1 == 0

def isPointer (w : Word) : Bool := !w.isSmi

/-- The integer that a small integer word stands for. -/
def toSmi? (w : Word) : Option Int :=
  if w.isSmi then some (w.signed / 2) else none

/-- The address in a pointer: the word without its tag bit. -/
def address (w : Word) : Nat := (w.bits &&& ~~~1).toNat

/-- Lower-case hexadecimal digits, without leading zeros. -/
def hex (n : Nat) : String := String.ofList (Nat.toDigits 16 n)

/-- The diagnostic spelling: `Smi(5)` or `Ptr(0x1000)`. -/
def debug (w : Word) : String :=
  match w.toSmi? with
  | some n => s!"Smi({n})"
  | none => "Ptr(0x" ++ hex w.address ++ ")"

/-! ### Machine arithmetic -/

def add (a b : Word) : Word := ⟨a.bits + b.bits⟩

def sub (a b : Word) : Word := ⟨a.bits - b.bits⟩

def neg (a : Word) : Word := ⟨0 - a.bits⟩

def and (a b : Word) : Word := ⟨a.bits &&& b.bits⟩

def or (a b : Word) : Word := ⟨a.bits ||| b.bits⟩

def xor (a b : Word) : Word := ⟨a.bits ^^^ b.bits⟩

/-- The low word of a product. -/
def mul (a b : Word) : Word := ⟨a.bits * b.bits⟩

/-- The high word of the product of two signed words. -/
def mulHigh (a b : Word) : Word := ofInt (a.signed * b.signed / 2 ^ 64)

/-- Whether the sign bit is set. -/
def isNegative (a : Word) : Bool := a.signed < 0

/-- The sign bit in all places. -/
def signWord (a : Word) : Word := if a.isNegative then ofInt (-1) else ofInt 0

/-- Shift right by one, keeping the sign. -/
def untag (a : Word) : Word := ofInt (a.signed / 2)

/-- Shift left by one, dropping the top bit. -/
def tag (a : Word) : Word := ⟨a.bits <<< 1⟩

/-! ### Overflow, as machine code tests for it -/

/-- Only the least word has no negative. -/
def negOverflows (a : Word) : Bool := a == ofInt (-(2 ^ 63))

/-- A sum overflows if both operands differ in sign from it. -/
def addOverflows (a b : Word) : Bool :=
  let sum := a.add b
  ((a.xor sum).and (b.xor sum)).isNegative

/-- A difference overflows if the operands differ in sign and it differs from the first. -/
def subOverflows (a b : Word) : Bool := ((a.xor b).and (a.xor (a.sub b))).isNegative

/-- A product fits if its high word only repeats the sign of its low word. -/
def mulOverflows (a b : Word) : Bool := a.mulHigh b != (a.mul b).signWord

@[simp] theorem smi_isSmi (n : Int) : (smi n).isSmi = true := by
  have h : (UInt64.ofInt (2 * n)).toNat % 2 = 0 := by
    simp only [UInt64.ofInt, UInt64.toNat_ofNat']
    omega
  simp only [isSmi, smi, ofInt, beq_iff_eq]
  apply UInt64.toNat_inj.mp
  rw [UInt64.toNat_and]
  simpa [Nat.and_one_is_mod] using h

@[simp] theorem pointer_isPointer (a : Nat) : (pointer a).isPointer = true := by
  simp only [isPointer, isSmi, pointer, Bool.not_eq_true', beq_eq_false_iff_ne, ne_eq]
  intro h
  have h' := congrArg UInt64.toNat h
  simp only [UInt64.toNat_and, UInt64.toNat_or, UInt64.toNat_one, UInt64.toNat_zero,
    Nat.and_one_is_mod] at h'
  have odd := (Nat.or_mod_two_eq_one (a := (UInt64.ofNat a).toNat) (b := 1)).mpr (.inr rfl)
  omega

end Word
end ScriptEngine
