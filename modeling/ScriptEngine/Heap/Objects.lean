import ScriptEngine.Heap.View

/-!
The object model. Dense objects index their storage by small integers; all others keep items of
a key and a value, in an order that the shape determines, so that objects of one shape agree on
slot numbers. Adding a key follows a transition; deleting one, or holding too many, moves an
object to a shape of its own outside the tree.
-/

namespace ScriptEngine.Heap

/-- Keys that an object may hold before it leaves the transition tree. -/
def maxFastProperties : Nat := 64

/-- Dense storage grows only for indices below this. -/
def maxDenseIndex : Int := 2 ^ 24

/-! ### Allocation -/

/-- An empty object of the shape. -/
def allocObject (shape : Word) : HeapM Word := do
  let object ← allocYoung shape Layout.Object.size
  let store ← allocStore (Layout.Object.minItems * Layout.Item.words)
  write object Layout.Object.store store
  return object

def newObject : HeapM Word := do allocObject ((← get).rootShape .object)

/-- The global object. -/
def newGlobal : HeapM Word := do
  let global ← allocObject ((← get).rootShape .global)
  root global
  return global

/-- A dense array of holes. -/
def newArray (length : Nat) : HeapM Word := do
  let array ← allocYoung ((← get).rootShape .array) Layout.Object.size
  let store ← allocStore length
  write array Layout.Object.store store
  return array

/-- A function object without properties. -/
def allocBareFunction (code instanceShape : Word) : HeapM Word := do
  let function ← allocYoung ((← get).rootShape .function) Layout.Function.size
  let store ← allocStore (Layout.Object.minItems * Layout.Item.words)
  write function Layout.Function.store store
  write function Layout.Function.code code
  write function Layout.Function.instanceShape instanceShape
  return function

/-- A function of the host: it has no `prototype`, and stays alive for the scope. -/
def allocBuiltinFunction (code : Word) : HeapM Word := do
  let function ← allocBareFunction code ((← get).rootShape .object)
  root function
  return function

def functionCode (h : Heap) (function : Word) : Except HeapError Word :=
  if h.isFunction function then .ok (h.read function Layout.Function.code)
  else .error (.notAnObject function)

/-- Shape of the objects that a function constructs. -/
def instanceShape (h : Heap) (function : Word) : Except HeapError Word :=
  if h.isFunction function then .ok (h.read function Layout.Function.instanceShape)
  else .error (.notAnObject function)

/-! ### Slots -/

/-- Number of items in keyed storage. -/
def itemCount (h : Heap) (store : Word) : Nat := h.storeLength store / Layout.Item.words

/-- Key of an item of keyed storage. -/
def itemKey (h : Heap) (store : Word) (slot : Nat) : Word :=
  h.read store (Layout.Store.items + slot * Layout.Item.bytes)

/-- Byte offset of a slot in the storage of an object. -/
def slotOffset (h : Heap) (object : Word) (slot : Nat) : Nat :=
  if h.isDense object then Layout.Store.items + slot * Layout.word
  else Layout.Store.items + slot * Layout.Item.bytes + Layout.Item.value

def readSlot (h : Heap) (object : Word) (slot : Nat) : Word :=
  h.read (h.storeOf object) (h.slotOffset object slot)

def writeSlot (object : Word) (slot : Nat) (value : Word) : HeapM Unit := do
  let h ← get
  write (h.storeOf object) (h.slotOffset object slot) value

/-- First slot of keyed storage that has this key. -/
def findKey? (h : Heap) (store key : Word) : Option Nat :=
  (List.range (h.itemCount store)).find? fun slot => h.itemKey store slot == key

/-- Slot of an own property. -/
def ownSlot? (h : Heap) (object key : Word) : Option Nat :=
  if !h.isObject object then none
  else
    let store := h.storeOf object
    if h.isDense object then do
      let index ← key.toSmi?
      guard (0 ≤ index ∧ index < h.storeLength store)
      guard (h.readSlot object index.toNat ≠ h.hole)
      return index.toNat
    else h.findKey? store key

/-- Replace the storage of an object by a longer one with the same contents. -/
def growStore (object : Word) (words : Nat) : HeapM Unit := do
  let h ← get
  let old := h.storeOf object
  let kept := min (h.storeLength old) words
  let grown ← allocStore words
  let source := old.address + Layout.Store.items
  let target := grown.address + Layout.Store.items
  modify fun h => { h with memory := h.memory.copy source target kept }
  write object Layout.Object.store grown

/-- Move an object to a shape of its own, which no inline cache remembers. -/
def toDictionary (object : Word) : HeapM Unit := do
  let h ← get
  match h.shapeOf? object with
  | none => throw (.notAnObject object)
  | some shape =>
    let own ← allocShape ((h.shapeFlags shape).without .transition) (h.shapeProto shape)
    write object Layout.shape own

/-- Follow the transition for a key that was just added. -/
def followTransition (object shape key : Word) : HeapM Unit := do
  let h ← get
  let flags := h.shapeFlags shape
  if flags.contains .transition then
    if maxFastProperties < h.transitions.keyCount shape + 1 then toDictionary object
    else match h.transitions.child? shape key with
      | some child => write object Layout.shape child
      | none =>
        let child ← allocShape flags (h.shapeProto shape)
        modify fun h => { h with transitions := h.transitions.insert shape key child }
        write object Layout.shape child

/-- A free slot of keyed storage, which grows if there is none. -/
def freeSlot (object : Word) : HeapM Nat := do
  let h ← get
  let store := h.storeOf object
  match h.findKey? store h.hole with
  | some slot => return slot
  | none =>
    let items := h.itemCount store
    growStore object (max (items * 2) Layout.Object.minItems * Layout.Item.words)
    return items

/-- Add a property that the object does not have. Dense objects take only small indices. -/
def addProperty (object key : Word) : HeapM (Option Nat) := do
  let h ← get
  if h.isDense object then
    match key.toSmi? with
    | none => return none
    | some index =>
      if 0 ≤ index ∧ index < maxDenseIndex then
        let words := h.storeLength (h.storeOf object)
        if words ≤ index.toNat then growStore object (max (index.toNat + 1) (words * 2))
        return some index.toNat
      else return none
  else
    match h.shapeOf? object with
    | none => throw (.notAnObject object)
    | some shape =>
      let slot ← freeSlot object
      let store := (← get).storeOf object
      let offset := Layout.Store.items + slot * Layout.Item.bytes
      write store offset key
      write store (offset + Layout.Item.value) h.undefined
      followTransition object shape key
      return some slot

/-! ### Properties -/

/-- The form of a key that an object stores: small integers stay for dense objects, everything
else becomes an interned string. -/
def propertyKey (object key : Word) : HeapM Word := do
  let h ← get
  if key.isSmi && h.isDense object then return key
  else if (h.text? key).isSome then return key
  else string (h.display key)

/-- Slot of an own property; with `update`, a missing one is added. -/
def lookupSlot (object key : Word) (update : Bool) : HeapM (Option Nat) := do
  if !(← get).isObject object then return none
  let key ← propertyKey object key
  match (← get).ownSlot? object key with
  | some slot => return some slot
  | none => if update then addProperty object key else return none

/-- Look a key up along the prototype chain, from `current` on. The chain passes no object twice, and
no two objects have the same address, so the end of the mapped addresses bounds its length. -/
def lookupChain (key : Word) : Nat → Word → HeapM Word
  | 0, _ => return (← get).undefined
  | fuel + 1, current => do
    if !(← get).isObject current then return (← get).undefined
    let own ← propertyKey current key
    let h ← get
    let found := (h.ownSlot? current own).map (h.readSlot current)
    match found with
    | some value =>
      if value ≠ h.hole then return value
      else lookupChain key fuel (h.shapeProto (h.read current Layout.shape))
    | none => lookupChain key fuel (h.shapeProto (h.read current Layout.shape))

/-- Read a property of an object or of its prototypes. A string has its length in bytes. -/
def getProperty (object key : Word) : HeapM Word := do
  let h ← get
  match h.text? object with
  | some s =>
    if h.text? key = some "length" then return .smi s.utf8ByteSize
    else lookupChain key h.addressSpace.next object
  | none => lookupChain key h.addressSpace.next object

/-- Keep the shape of a function's instances in step with its `prototype`. -/
def refreshInstanceShape (function proto : Word) : HeapM Unit := do
  let h ← get
  let proto := if h.isObject proto then proto else h.null
  match h.instanceShape function with
  | .error e => throw e
  | .ok current =>
    if h.shapeProto current ≠ proto then
      let shape ← allocShape .transition proto
      write function Layout.Function.instanceShape shape

/-- Assign a property; a value without storage ignores it. -/
def setProperty (object key value : Word) : HeapM Unit := do
  match ← lookupSlot object key true with
  | none => return ()
  | some slot =>
    writeSlot object slot value
    let h ← get
    if h.isFunction object ∧ h.text? key = some "prototype" then
      refreshInstanceShape object value

/-- A function with a fresh `prototype` object. -/
def allocFunction (code : Word) : HeapM Word := do
  let proto ← newObject
  let shape ← allocShape .transition proto
  let function ← allocBareFunction code shape
  let key ← string "prototype"
  setProperty function key proto
  return function

/-- Remove an own property. The answer is true, whether there was one or not. -/
def deleteProperty (object key : Word) : HeapM Bool := do
  if !(← get).isObject object then return true
  let key ← propertyKey object key
  let h ← get
  match h.ownSlot? object key with
  | none => return true
  | some slot =>
    if h.isDense object then
      writeSlot object slot h.hole
      return true
    else
      if h.hasFlag object .transition then toDictionary object
      let store := (← get).storeOf object
      let offset := Layout.Store.items + slot * Layout.Item.bytes
      write store offset h.hole
      write store (offset + Layout.Item.value) h.hole
      return true

/-- Whether `proto` is on the prototype chain of a value. -/
def onChain (h : Heap) (proto : Word) : Nat → Word → Bool
  | 0, _ => false
  | fuel + 1, current =>
    match h.shapeOf? current with
    | none => false
    | some shape =>
      let next := h.shapeProto shape
      next == proto || (h.isObject next && onChain h proto fuel next)

/-- Whether an object was constructed by a function; `none` if the latter cannot be called. -/
def instanceOf (object constructor : Word) : HeapM (Option Bool) := do
  if !(← get).isFunction constructor then return none
  let key ← string "prototype"
  let proto ← getProperty constructor key
  let h ← get
  if !h.isObject object || !h.isObject proto then return some false
  return some (h.onChain proto h.addressSpace.next object)

end ScriptEngine.Heap
