import ScriptEngine.Memory
import ScriptEngine.Number.Double
import ScriptEngine.Scope
import ScriptEngine.Shape
import ScriptEngine.Space

/-!
The object heap: three spaces over one memory, the values that exist from the start, interned
strings, boxed numbers and code objects. Operations that allocate run in `HeapM`, where a
failure leaves behind whatever was done before it.
-/

namespace ScriptEngine

structure HeapConfig where
  /-- Page size of the spaces of objects. -/
  pageSize : Nat := 1024 * 1024
  /-- Page size of the space of shapes. -/
  shapePageSize : Nat := 256 * 1024
  /-- Room added to pages that are mapped for large requests. -/
  pageSlack : Nat := 1024
deriving Inhabited

/-- Heap pointers that machine code holds, in the order in which they were recorded. -/
structure CodeRecord where
  name : String := ""
  /-- Objects that the code keeps alive. -/
  strong : Array Word := #[]
  /-- Shapes that the code looks at without owning them. -/
  weak : Array Word := #[]
deriving Inhabited

structure Heap where
  memory : Memory := {}
  addressSpace : Page.AddressSpace := {}
  young : Space := { name := "young", pageSize := 0, pageSlack := 0 }
  old : Space := { name := "old", pageSize := 0, pageSlack := 0 }
  shapes : Space := { name := "maps", pageSize := 0, pageSlack := 0 }
  /-- Root shapes by index. -/
  rootShapes : Array Word := #[]
  undefined : Word := default
  null : Word := default
  /-- Marks storage words that hold nothing. -/
  hole : Word := default
  trueValue : Word := default
  falseValue : Word := default
  strings : Std.TreeMap String Word := ∅
  transitions : Transitions := {}
  codeRecords : Array CodeRecord := #[]
  scopes : Scopes := {}
deriving Inhabited

/-- Heap operations that can fail; a failure keeps the effects before it. -/
abbrev HeapM := EStateM HeapError Heap

namespace Heap

/-! ### Words and shapes -/

/-- The word at a byte offset of an object. -/
def read (h : Heap) (object : Word) (offset : Nat) : Word := h.memory.load (object.address + offset)

def write (object : Word) (offset : Nat) (value : Word) : HeapM Unit :=
  modify fun h => { h with memory := h.memory.store (object.address + offset) value }

def rootShape (h : Heap) (kind : RootShape) : Word := h.rootShapes.getD kind.index default

def boolean (h : Heap) (b : Bool) : Word := if b then h.trueValue else h.falseValue

/-- Shape of a heap value; small integers have none. -/
def shapeOf? (h : Heap) (value : Word) : Option Word :=
  if value.isSmi then none else some (h.read value Layout.shape)

def shapeFlags (h : Heap) (shape : Word) : ShapeFlags :=
  match (h.read shape Layout.Shape.flags).toSmi? with
  | some n => ⟨(n % 2 ^ 64).toNat⟩
  | none => .none

def shapeProto (h : Heap) (shape : Word) : Word := h.read shape Layout.Shape.proto

/-- Whether a value has exactly this root shape. -/
def hasRootShape (h : Heap) (value : Word) (kind : RootShape) : Bool :=
  h.shapeOf? value == some (h.rootShape kind)

/-! ### Allocation -/

/-- Take memory from the young space and make it an object of the shape. -/
def allocYoung (shape : Word) (size : Nat) : HeapM Word := do
  let h ← get
  match h.young.allocate h.addressSpace size with
  | .error e => throw e
  | .ok (address, young, addressSpace) =>
    set { h with young, addressSpace }
    write (.pointer address) Layout.shape shape
    return .pointer address

/-- Take memory from the old space and make it an object of the shape. -/
def allocOld (shape : Word) (size : Nat) : HeapM Word := do
  let h ← get
  match h.old.allocate h.addressSpace size with
  | .error e => throw e
  | .ok (address, old, addressSpace) =>
    set { h with old, addressSpace }
    write (.pointer address) Layout.shape shape
    return .pointer address

/-- Allocate a shape. The shape of the very first one is patched afterwards. -/
def allocShape (flags : ShapeFlags) (proto : Word) : HeapM Word := do
  let h ← get
  match h.shapes.allocate h.addressSpace Layout.Shape.size with
  | .error e => throw e
  | .ok (address, shapes, addressSpace) =>
    set { h with shapes, addressSpace }
    let shape := Word.pointer address
    write shape Layout.shape (h.rootShape .map)
    write shape Layout.Shape.flags (.smi flags.bits)
    write shape Layout.Shape.proto proto
    return shape

/-- Record a value in the innermost scope. -/
def root (value : Word) : HeapM Unit :=
  modify fun h => { h with scopes := h.scopes.root value }

/-- Allocate property storage full of holes. -/
def allocStore (words : Nat) : HeapM Word := do
  let store ← allocYoung ((← get).rootShape .field) (Layout.Store.size words)
  write store Layout.Store.length (.smi words)
  modify fun h =>
    { h with memory := h.memory.fill (store.address + Layout.Store.items) words h.hole }
  return store

/-! ### Strings and numbers -/

/-- The one string object with this text. -/
def string (text : String) : HeapM Word := do
  match (← get).strings[text]? with
  | some value => return value
  | none =>
    let bytes := text.toUTF8
    let value ← allocOld ((← get).rootShape .string) (Layout.Text.data + bytes.size)
    write value Layout.Text.length (.smi bytes.size)
    modify fun h =>
      { h with memory := h.memory.storeBytes (value.address + Layout.Text.data) bytes.data.toList }
    modify fun h => { h with strings := h.strings.insert text value }
    root value
    return value

/-- Text of a string object. -/
def text? (h : Heap) (value : Word) : Option String := do
  guard (h.hasRootShape value .string)
  let length ← (h.read value Layout.Text.length).toSmi?
  String.fromUTF8? (h.memory.loadBytes (value.address + Layout.Text.data) length.toNat)

/-- The small integer that stands for a double: a whole number of fewer than 54 bits that is
not negative zero. -/
def smiOfDouble? (n : Double) : Option Word :=
  if n.isIntegral && !(n.isZero && n.isNegative) && n.truncate.natAbs < 2 ^ 53 then
    Word.ofSmi? n.truncate
  else none

/-- A number: a small integer if it is one, else a fresh box. -/
def number (n : Double) : HeapM Word := do
  match smiOfDouble? n with
  | some value => return value
  | none =>
    let value ← allocYoung ((← get).rootShape .number) Layout.Boxed.size
    write value Layout.Boxed.value ⟨n.bits⟩
    return value

/-- Numeric value of a small integer or a box. -/
def double? (h : Heap) (value : Word) : Option Double :=
  match value.toSmi? with
  | some n => some (.ofInt n)
  | none =>
    if h.hasRootShape value .number then some ⟨(h.read value Layout.Boxed.value).bits⟩ else none

/-! ### Code objects -/

/-- Allocate a code object for `length` bytes of machine code at `entry`. -/
def allocCode (entry length : Nat) (record : CodeRecord) : HeapM Word := do
  let code ← allocOld ((← get).rootShape .code) Layout.Code.size
  let index := (← get).codeRecords.size
  modify fun h => { h with codeRecords := h.codeRecords.push record }
  write code Layout.Code.entry (.ofNat entry)
  write code Layout.Code.length (.smi length)
  write code Layout.Code.record (.smi index)
  root code
  return code

def isCode (h : Heap) (value : Word) : Bool := h.hasRootShape value .code

/-- Entry of a code object, or the reason why there is none. -/
def codeEntry (h : Heap) (code : Word) : Except HeapError Nat :=
  if h.isCode code then .ok (h.read code Layout.Code.entry).toNat else .error (.notCode code)

/-- Length of the machine code of a code object. -/
def codeLength (h : Heap) (code : Word) : Except HeapError Nat :=
  if h.isCode code then
    .ok (match (h.read code Layout.Code.length).toSmi? with
      | some n => (n % 2 ^ 64).toNat
      | none => 0)
  else .error (.notCode code)

/-- Let a code object point at other machine code; its callers follow at their next call. -/
def installEntry (code : Word) (entry length : Nat) : HeapM Unit := do
  if (← get).isCode code then
    write code Layout.Code.entry (.ofNat entry)
    write code Layout.Code.length (.smi length)
  else throw (.notCode code)

/-- Index of the reference record of a code object. -/
def recordIndex (h : Heap) (code : Word) : Except HeapError Nat :=
  if h.isCode code then
    match (h.read code Layout.Code.record).toSmi? with
    | some n =>
      if 0 ≤ n ∧ n < h.codeRecords.size then .ok n.toNat else .error (.notCode code)
    | none => .error (.notCode code)
  else .error (.notCode code)

def codeRecord (h : Heap) (code : Word) : Except HeapError CodeRecord := do
  return h.codeRecords.getD (← h.recordIndex code) {}

/-- Change the reference record of a code object. -/
def modifyRecord (code : Word) (f : CodeRecord → CodeRecord) : HeapM Unit := do
  match (← get).recordIndex code with
  | .ok index => modify fun h => { h with codeRecords := h.codeRecords.modify index f }
  | .error e => throw e

/-! ### Start -/

/-- Allocate a root shape, whose prototype is yet to come. -/
def allocRoot (kind : RootShape) : HeapM Unit := do
  let shape ← allocShape kind.flags default
  modify fun h => { h with rootShapes := h.rootShapes.push shape }

/-- Allocate an oddball and number it. -/
def allocOddball (kind : RootShape) (n : Int) : HeapM Word := do
  let value ← allocOld ((← get).rootShape kind) Layout.Oddball.size
  write value Layout.Oddball.value (.smi n)
  return value

/-- Create the root shapes and the oddballs. Root shapes have `null` as their prototype, and the
first of them is its own shape. -/
def bootstrap : HeapM Unit := do
  RootShape.all.forM allocRoot
  let first := (← get).rootShape .map
  write first Layout.shape first
  let undefined ← allocOddball .oddball 0
  let null ← allocOddball .oddball 1
  let hole ← allocOddball .oddball 2
  let trueValue ← allocOddball .boolean 1
  let falseValue ← allocOddball .boolean 0
  modify fun h => { h with undefined, null, hole, trueValue, falseValue }
  (← get).rootShapes.toList.forM (write · Layout.Shape.proto null)

/-- A heap with nothing in it but what exists from the start. -/
def create (config : HeapConfig) : Except HeapError Heap :=
  let empty : Heap :=
    { young := { name := "young", pageSize := config.pageSize, pageSlack := config.pageSlack }
      old := { name := "old", pageSize := config.pageSize, pageSlack := config.pageSlack }
      shapes :=
        { name := "maps", pageSize := config.shapePageSize, pageSlack := config.pageSlack } }
  match bootstrap.run empty with
  | .ok _ h => .ok h
  | .error e _ => .error e

end Heap
end ScriptEngine
