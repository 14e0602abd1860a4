import ScriptEngine.Stub.Basic

/-!
Stubs for operators, coercions and the check of callees. Operators answer for two small integers
by themselves and ask the host about everything else: overflow, doubles, strings and objects.
-/

namespace ScriptEngine.Stub

/-- A value to itself if it can be called; otherwise an error is recorded, and the answer is a
function that does nothing. -/
def checkFunctionBody : BuildM Unit := do
  let callee ← stubArg 0
  discard (isSmi callee)
  let bad ← newBlock
  let heap ← newBlock
  branch bad heap
  switchTo heap
  let shape ← read callee Layout.shape
  let flags ← read shape Layout.Shape.flags
  discard (testBits flags (flagMask .function))
  let ok ← newBlock
  branch ok bad
  switchTo ok
  discard (ret callee)
  switchTo bad
  retHost "typeError" [callee]

/-- A value to its truth. -/
def truthBody : BuildM Unit := do
  let value ← stubArg 0
  let yes ← newBlock
  let no ← newBlock
  let same ← newBlock
  discard (isSmi value)
  let small ← newBlock
  let boxed ← newBlock
  branch small boxed
  switchTo small
  discard (compareSmi value (smi 0) .eq)
  branch no yes
  switchTo boxed
  let t ← literal (.bool true)
  discard (comparePointer value t .eq)
  let notTrue ← newBlock
  branch same notTrue
  switchTo notTrue
  let f ← literal (.bool false)
  discard (comparePointer value f .eq)
  let slow ← newBlock
  branch same slow
  switchTo same
  discard (ret value)
  switchTo yes
  retLiteral (.bool true)
  switchTo no
  retLiteral (.bool false)
  switchTo slow
  retHost "coerce/boolean" [value]

def negateBody : BuildM Unit := do
  let value ← stubArg 0
  discard (isSmi value)
  let fast ← newBlock
  let slow ← newBlock
  branch fast slow
  switchTo fast
  let result ← emit .neg [value]
  discard (emit .overflowed)
  let done ← newBlock
  branch slow done
  switchTo done
  discard (ret result)
  switchTo slow
  retHost "unary/-" [value]

def notBody : BuildM Unit := do
  let value ← stubArg 0
  let boolean ← callStub "coerce/boolean" [value]
  discard (emit .isTrue [boolean])
  let truthy ← newBlock
  let falsy ← newBlock
  branch truthy falsy
  switchTo truthy
  retLiteral (.bool false)
  switchTo falsy
  retLiteral (.bool true)

/-- Continue in a block that is reached with two small integers; the answer is the block for all
other operands. -/
def bothSmis (left right : InstrId) : BuildM BlockId := do
  let slow ← newBlock
  discard (isSmi left)
  let checkRight ← newBlock
  branch checkRight slow
  switchTo checkRight
  discard (isSmi right)
  let fast ← newBlock
  branch fast slow
  switchTo fast
  return slow

/-- Let the host answer in the given block. -/
def generic (slow : BlockId) (name : String) (left right : InstrId) : BuildM Unit := do
  switchTo slow
  retHost name [left, right]

/-- Identical words are equal unless they are a boxed number, which may be no number. A small
integer equals no other word, since a number that fits is never boxed. -/
def equalityBody (name : String) (whenEqual : Bool) (left right : InstrId) : BuildM Unit := do
  let equal ← newBlock
  let unequal ← newBlock
  let slow ← newBlock
  discard (comparePointer left right .eq)
  let same ← newBlock
  let different ← newBlock
  branch same different
  switchTo same
  discard (isSmi left)
  let boxed ← newBlock
  branch equal boxed
  switchTo boxed
  let shape ← read left Layout.shape
  let number ← literal (.shape .number)
  discard (comparePointer shape number .eq)
  branch slow equal
  switchTo different
  discard (isSmi left)
  let leftBoxed ← newBlock
  branch unequal leftBoxed
  switchTo leftBoxed
  discard (isSmi right)
  branch unequal slow
  switchTo equal
  retLiteral (.bool whenEqual)
  switchTo unequal
  retLiteral (.bool !whenEqual)
  generic slow name left right

/-- Arithmetic on small integers, unless it overflows. -/
def arithmeticBody (op : PrimOp) (name : String) (left right : InstrId) : BuildM Unit := do
  let slow ← bothSmis left right
  let result ← emit op [left, right]
  discard (emit .overflowed)
  let done ← newBlock
  branch slow done
  switchTo done
  discard (ret result)
  generic slow name left right

def orderBody (cond : Cond) (name : String) (left right : InstrId) : BuildM Unit := do
  let slow ← bothSmis left right
  discard (compareSmi left right cond)
  let yes ← newBlock
  let no ← newBlock
  branch yes no
  switchTo yes
  retLiteral (.bool true)
  switchTo no
  retLiteral (.bool false)
  generic slow name left right

/-- Name of the stub, and of the host callback, of a binary operator. -/
def binaryName (op : BinaryOp) : String := "binary/" ++ op.symbol

def binaryBody (op : BinaryOp) : BuildM Unit := do
  let left ← stubArg 0
  let right ← stubArg 1
  let name := binaryName op
  match op with
  | .add => arithmeticBody .add name left right
  | .sub => arithmeticBody .sub name left right
  | .mul => arithmeticBody .mul name left right
  | .lt => orderBody .lt name left right
  | .le => orderBody .le name left right
  | .strictEq => equalityBody name true left right
  | .strictNe => equalityBody name false left right
  | .instanceOf => retHost name [left, right]

end ScriptEngine.Stub
