import ScriptEngine.Stub.Basic

/-!
Stubs that allocate. The basic one moves the top of the young space and asks the host only when
the page is full; the others build objects from it.
-/

namespace ScriptEngine.Stub

/-- Root shapes whose objects compiled code allocates. -/
def allocatedShapes : List RootShape := [.field, .object, .array, .function]

/-- Size in bytes to an object of the shape. -/
def allocBody (kind : RootShape) : BuildM Unit := do
  let size ← stubArg 0
  let shape ← literal (.shape kind)
  let bytes ← emit .untag [size]
  let bytes ← emit .alignSize [bytes]
  let top ← emit .heapTop
  let newTop ← emit .addBare [top, bytes]
  let limit ← emit .heapLimit
  discard (comparePointer newTop limit .gt)
  let slow ← newBlock
  let fast ← newBlock
  branch slow fast
  switchTo fast
  discard (emit .setHeapTop [newTop])
  let object ← emit .pointer [top]
  discard (write object Layout.shape shape)
  discard (ret object)
  switchTo slow
  retHost "allocTagged" [shape, size]

/-- Number of words to property storage full of holes. -/
def storeBody : BuildM Unit := do
  let words ← stubArg 0
  let bytes ← emit .mul [words, smi 8]
  let size ← emit .add [bytes, smi Layout.Store.items]
  let store ← alloc .field size
  discard (write store Layout.Store.length words)
  let count ← emit .untag [words]
  let hole ← literal .hole
  discard (emit .fill [store, raw Layout.Store.items, count, hole])
  discard (ret store)

/-- Storage of a fresh object. -/
def freshStore : BuildM InstrId :=
  callStub "allocField" [smi (Layout.Object.minItems * Layout.Item.words)]

/-- An empty object. -/
def objectBody : BuildM Unit := do
  let store ← freshStore
  let object ← alloc .object (smi Layout.Object.size)
  discard (write object Layout.Object.store store)
  discard (ret object)

/-- Length to an array of holes. -/
def arrayBody : BuildM Unit := do
  let length ← stubArg 0
  let store ← callStub "allocField" [length]
  let array ← alloc .array (smi Layout.Object.size)
  discard (write array Layout.Object.store store)
  discard (ret array)

/-- Code to a function with a fresh `prototype`. Storing the property also gives the function the
shape of its instances. -/
def functionBody : BuildM Unit := do
  let code ← stubArg 0
  let store ← freshStore
  let function ← alloc .function (smi Layout.Function.size)
  discard (write function Layout.Function.store store)
  discard (write function Layout.Function.code code)
  let shape ← literal (.shape .object)
  discard (write function Layout.Function.instanceShape shape)
  let proto ← callStub "allocObject" []
  let key ← literal (.text "prototype")
  discard (callHost "storeProperty" [function, key, proto])
  discard (ret function)

/-- Argument count, function and arguments to a new instance. -/
def constructBody : BuildM Unit := do
  let count ← stubArg 0
  let callee ← stubArg 1
  let callee ← callStub "checkFunction" [callee]
  let shape ← read callee Layout.Function.instanceShape
  let object ← callStub "allocObject" []
  discard (write object Layout.shape shape)
  let argc ← emit .untag [count]
  discard (emit .forward [argc, raw 2])
  discard (emit .forwardCall [callee, object])
  discard (ret object)

end ScriptEngine.Stub
