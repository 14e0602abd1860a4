import Std.Data.TreeMap
import ScriptEngine.Word

/-!
Byte-addressed memory of 64-bit words. Memory that was never written reads as zero. Words are
kept in frames of a fixed number of words, so that large areas can be filled a frame at a time.
-/

namespace ScriptEngine

/-- Words in a frame. -/
def Memory.frameWords : Nat := 128

/-- Memory contents, by frame number; a frame that is not there reads as zero. -/
structure Memory where
  frames : Std.TreeMap Nat (Vector Word Memory.frameWords) := ∅
deriving Inhabited

namespace Memory

/-- Place of a word in its frame. -/
def place (i : Nat) : Fin frameWords := ⟨i % frameWords, Nat.mod_lt i (by decide)⟩

/-- The word with index `i`: the eight bytes from address `8 * i` on. -/
def wordAt (m : Memory) (i : Nat) : Word :=
  match m.frames[i / frameWords]? with
  | some frame => frame.get (place i)
  | none => ⟨0⟩

/-- Replace the word with index `i`. -/
def setWord (m : Memory) (i : Nat) (w : Word) : Memory where
  frames := m.frames.alter (i / frameWords) fun frame =>
    let frame := frame.getD (Vector.replicate frameWords ⟨0⟩)
    some (frame.set (place i) w)

/-- Replace `count` words from index `i` on by the same word. -/
def fillWords (m : Memory) (i count : Nat) (w : Word) : Memory :=
  if h : count = 0 then m
  else if i % frameWords = 0 ∧ frameWords ≤ count then
    fillWords ⟨m.frames.insert (i / frameWords) (Vector.replicate frameWords w)⟩
      (i + frameWords) (count - frameWords) w
  else fillWords (m.setWord i w) (i + 1) (count - 1) w
termination_by count
decreasing_by all_goals (simp only [frameWords] at *; omega)

/-- The eight bytes from `address` on, low byte first. -/
def load (m : Memory) (address : Nat) : Word :=
  let low := m.wordAt (address / 8)
  let skipped := 8 * UInt64.ofNat (address % 8)
  if skipped = 0 then low
  else ⟨(low.bits >>> skipped) ||| ((m.wordAt (address / 8 + 1)).bits <<< (64 - skipped))⟩

/-- Replace the eight bytes from `address` on. -/
def store (m : Memory) (address : Nat) (w : Word) : Memory :=
  let skipped := 8 * UInt64.ofNat (address % 8)
  if skipped = 0 then m.setWord (address / 8) w
  else
    let low := (m.wordAt (address / 8)).bits
    let high := (m.wordAt (address / 8 + 1)).bits
    let keep := (1 <<< skipped) - 1
    let m := m.setWord (address / 8) ⟨(low &&& keep) ||| (w.bits <<< skipped)⟩
    m.setWord (address / 8 + 1) ⟨(high &&& ~~~keep) ||| (w.bits >>> (64 - skipped))⟩

/-- Store the same word `count` times from `address` on. -/
def fill (m : Memory) (address count : Nat) (w : Word) : Memory :=
  if address % 8 = 0 then m.fillWords (address / 8) count w
  else count.fold (fun i _ m => m.store (address + 8 * i) w) m

/-- Copy `count` whole words. -/
def copy (m : Memory) (source target count : Nat) : Memory :=
  count.fold (fun i _ m => m.store (target + 8 * i) (m.load (source + 8 * i))) m

/-- Eight bytes as a word, low byte first. -/
def packBytes (bytes : List UInt8) : Word :=
  ⟨bytes.foldr (fun b w => (w <<< 8) ||| b.toUInt64) 0⟩

/-- Store bytes from a word-aligned address on; the last word is padded with zeros. -/
def storeBytes (m : Memory) (address : Nat) : List UInt8 → Memory
  | [] => m
  | b :: rest =>
    storeBytes (m.store address (packBytes (b :: rest.take 7))) (address + 8) (rest.drop 7)
termination_by bytes => bytes.length
decreasing_by simp only [List.length_drop, List.length_cons]; omega

/-- The byte at an address. -/
def byteAt (m : Memory) (address : Nat) : UInt8 :=
  ((m.wordAt (address / 8)).bits >>> (8 * UInt64.ofNat (address % 8))).toUInt8

/-- The bytes from an address on. -/
def loadBytes (m : Memory) (address count : Nat) : ByteArray :=
  count.fold (fun i _ bytes => bytes.push (m.byteAt (address + i))) (.emptyWithCapacity count)

end Memory
end ScriptEngine
