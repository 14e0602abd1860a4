import ScriptEngine.Stub.Basic

/-!
Stubs for properties. A slot comes from the inline cache of the site; anything but a small
integer means that there is none, and then the host does the access.
-/

namespace ScriptEngine.Stub

/-- Name of the stub that inline caches end in. -/
def missStub : String := "getPropertySlot_Miss"

/-- Object, key and update flag to slot. It continues an inline cache, so the callee is the
cache. -/
def missBody : BuildM Unit := do
  let cache ← emit .callee
  let object ← stubArg 0
  let key ← stubArg 1
  let update ← stubArg 2
  retHost "getPropertySlot" [cache, object, key, update]

/-- The storage of a receiver, and the blocks for its kinds. -/
structure SlotBlocks where
  store : InstrId
  dense : BlockId
  keyed : BlockId
  slow : BlockId

/-- Check slot and receiver, and branch on the kind of storage. Receivers whose properties need
the host go the slow way. -/
def slotBlocks (object slot : InstrId) : BuildM SlotBlocks := do
  let slow ← newBlock
  discard (isSmi slot)
  let found ← newBlock
  branch found slow
  switchTo found
  let shape ← read object Layout.shape
  let flags ← read shape Layout.Shape.flags
  discard (testBits flags (flagMask .accessor))
  let plain ← newBlock
  branch slow plain
  switchTo plain
  let store ← read object Layout.Object.store
  discard (testBits flags (flagMask .dense))
  let dense ← newBlock
  let keyed ← newBlock
  branch dense keyed
  return { store, dense, keyed, slow }

/-- Base and scale of the values in dense storage. -/
def denseScale : List Input := [raw Layout.Store.items, raw Layout.word]

/-- Base and scale of the values in keyed storage. -/
def keyedScale : List Input := [raw (Layout.Store.items + Layout.Item.value), raw Layout.Item.bytes]

/-- Object, key and slot to value. A hole in dense storage may hide a property of a prototype. -/
def loadBody : BuildM Unit := do
  let object ← stubArg 0
  let key ← stubArg 1
  let slot ← stubArg 2
  let blocks ← slotBlocks object slot
  switchTo blocks.dense
  let value ← emit .readIndexed ([.value blocks.store, .value slot] ++ denseScale)
  let hole ← literal .hole
  discard (comparePointer value hole .eq)
  let present ← newBlock
  branch blocks.slow present
  switchTo present
  discard (ret value)
  switchTo blocks.keyed
  let value ← emit .readIndexed ([.value blocks.store, .value slot] ++ keyedScale)
  discard (ret value)
  switchTo blocks.slow
  retHost "loadProperty" [object, key]

/-- Object, key, slot and value to the value. -/
def storeSlotBody : BuildM Unit := do
  let object ← stubArg 0
  let key ← stubArg 1
  let slot ← stubArg 2
  let value ← stubArg 3
  let blocks ← slotBlocks object slot
  switchTo blocks.dense
  discard (emit .writeIndexed ([.value blocks.store, .value slot] ++ denseScale ++ [.value value]))
  discard (ret value)
  switchTo blocks.keyed
  discard (emit .writeIndexed ([.value blocks.store, .value slot] ++ keyedScale ++ [.value value]))
  discard (ret value)
  switchTo blocks.slow
  discard (callHost "storeProperty" [object, key, value])
  discard (ret value)

/-- Object and key to boolean. -/
def deleteBody : BuildM Unit := do
  let object ← stubArg 0
  let key ← stubArg 1
  retHost "deleteProperty" [object, key]

end ScriptEngine.Stub
