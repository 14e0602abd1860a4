/-!
Operations of the instruction graph. Script operations come from source text and are removed by
lowering; primitive operations are what code generation understands. Each has a fixed name and
a fixed description.
-/

namespace ScriptEngine

/-- Operations on script values. -/
inductive ScriptOp where
  /-- Name to value. -/
  | loadGlobal
  /-- Name and value to value. -/
  | storeGlobal
  /-- Name to boolean. -/
  | deleteGlobal
  /-- Object and key to value. -/
  | loadProperty
  /-- Object, key and value to value. -/
  | storeProperty
  /-- Object and key to boolean. -/
  | deleteProperty
  /-- An empty object. -/
  | object
  /-- Bare length to a dense array of holes. -/
  | array
  /-- Function number to closure. -/
  | closure
  /-- Function and bare argument count, after the pushes, to an instance. -/
  | construct
  /-- Operator and value to value. -/
  | unary
  /-- Operator and two values to value. -/
  | binary
  /-- Sets the condition from the truth of a value. -/
  | branch
deriving DecidableEq, Inhabited

/-- Operations of the machine. -/
inductive PrimOp where
  /-- Constant to its word. -/
  | literal
  /-- Function number to the code object of the function. -/
  | code
  | global
  /-- The receiver of the call. -/
  | receiver
  /-- The function that is running; in an inline cache, the cache itself. -/
  | callee
  /-- Debug trap. -/
  | trap
  /-- Returns a value. -/
  | ret
  /-- Returns a slot from an inline cache. -/
  | cacheRet
  /-- Parameter of the block. -/
  | phi
  /-- Passes a value to a parameter of the next block. -/
  | toPhi
  /-- Object and bare offset to word. -/
  | read
  /-- Object, bare offset and value. -/
  | write
  /-- Object, index, bare base and bare scale to word. -/
  | readIndexed
  /-- Object, index, bare base, bare scale and value. -/
  | writeIndexed
  /-- Object, bare offset, bare count and value: stores the value that many times. -/
  | fill
  /-- Top of the young space. -/
  | heapTop
  /-- End of the current young page. -/
  | heapLimit
  /-- Moves the top of the young space. -/
  | setHeapTop
  /-- Bare size to whole words. -/
  | alignSize
  /-- Bare index to argument, `undefined` past the count. -/
  | arg
  /-- Bare index to argument of a stub, unchecked. -/
  | stubArg
  /-- Bare index to argument of an inline cache, unchecked. -/
  | cacheArg
  /-- Opens an area for outgoing arguments, of a bare number of words. -/
  | openArea
  /-- Stores into the open area, last argument first. -/
  | push
  /-- Bare count and bare start: forwards the arguments of this call to the next forwarding call. -/
  | forward
  /-- Function, receiver and bare count to result. -/
  | call
  /-- Stub or inline cache and bare count to result. -/
  | callStub
  /-- Continues in a stub with the callee and the arguments of this call. -/
  | tailCall
  /-- Function and receiver to result, with forwarded arguments. -/
  | forwardCall
  /-- Condition: the value is `true`. -/
  | isTrue
  /-- Condition: the value is `undefined`. -/
  | isUndefined
  /-- Condition: the value is a small integer. -/
  | isSmi
  /-- Condition: the last arithmetic overflowed. -/
  | overflowed
  /-- Condition on two small integers. -/
  | compareSmi
  /-- Condition: the value and the bare mask have a bit in common. -/
  | testBits
  /-- Condition on two words. -/
  | comparePointer
  | neg
  /-- Small integer to bare integer. -/
  | untag
  /-- Bare integer to small integer. -/
  | tag
  | add
  | sub
  | mul
  /-- Bare address to pointer. -/
  | pointer
  /-- Sum of bare words. -/
  | addBare
deriving DecidableEq, Inhabited

inductive Op where
  | script (op : ScriptOp)
  | prim (op : PrimOp)
deriving DecidableEq, Inhabited

/-- What is known of an operation. -/
structure OpInfo where
  /-- Name in dumps. -/
  name : String
  inputs : Nat
  /-- Whether it defines a value. -/
  output : Bool := false
  /-- Whether it leaves the function for a while. -/
  call : Bool := false
  /-- Whether it sets the condition of the block. -/
  cond : Bool := false
deriving DecidableEq, Inhabited

namespace OpInfo

def value (name : String) (inputs : Nat) : OpInfo := { name, inputs, output := true }

def effect (name : String) (inputs : Nat) : OpInfo := { name, inputs }

def calling (name : String) (inputs : Nat) : OpInfo := { name, inputs, output := true, call := true }

def condition (name : String) (inputs : Nat) : OpInfo := { name, inputs, cond := true }

end OpInfo

open OpInfo

def ScriptOp.info : ScriptOp → OpInfo
  | loadGlobal => value "loadGlobal" 1
  | storeGlobal => value "storeGlobal" 2
  | deleteGlobal => value "deleteGlobal" 1
  | loadProperty => value "loadProperty" 2
  | storeProperty => value "storeProperty" 3
  | deleteProperty => value "deleteProperty" 2
  | object => value "object" 0
  | array => value "array" 1
  | closure => value "fn" 1
  | construct => calling "new" 2
  | unary => value "unary" 2
  | binary => value "binary" 3
  | branch => condition "branch" 1

def PrimOp.info : PrimOp → OpInfo
  | literal => value "literal" 1
  | code => value "code" 1
  | global => value "global" 0
  | receiver => value "this" 0
  | callee => value "self" 0
  | trap => effect "brk" 0
  | ret => effect "ret" 1
  | cacheRet => effect "icRet" 1
  | phi => value "phi" 0
  | toPhi => effect "toPhi" 2
  | read => value "readTagged" 2
  | write => effect "writeTagged" 3
  | readIndexed => value "smiReadTagged" 4
  | writeIndexed => effect "smiWriteTagged" 5
  | fill => effect "pointerFill" 4
  | heapTop => value "heapCurrent" 0
  | heapLimit => value "heapLimit" 0
  | setHeapTop => effect "heapSetCurrent" 1
  | alignSize => value "heapAlignSize" 1
  | arg => value "loadArg" 1
  | stubArg => value "loadStubArg" 1
  | cacheArg => value "loadICArg" 1
  | openArea => effect "alignStack" 1
  | push => effect "pushArg" 1
  | forward => effect "repushArgs" 2
  | call => calling "call" 3
  | callStub => calling "callStub" 2
  | tailCall => { name := "tailCallStub", inputs := 1, call := true }
  | forwardCall => calling "smiCall" 2
  | isTrue => condition "isTrue" 1
  | isUndefined => condition "isUndef" 1
  | isSmi => condition "isSmi" 1
  | overflowed => condition "checkOverflow" 0
  | compareSmi => condition "smiCompare" 3
  | testBits => condition "smiTest" 2
  | comparePointer => condition "pointerCompare" 3
  | neg => value "smiNeg" 1
  | untag => value "smiUntag" 1
  | tag => value "smiTag" 1
  | add => value "smiAdd" 2
  | sub => value "smiSub" 2
  | mul => value "smiMul" 2
  | pointer => value "pointer" 1
  | addBare => value "pointerAdd" 2

/-- Whether the operation ends its block. -/
def PrimOp.isTerminator : PrimOp → Bool
  | ret | cacheRet | tailCall => true
  | _ => false

def ScriptOp.all : List ScriptOp :=
  [loadGlobal, storeGlobal, deleteGlobal, loadProperty, storeProperty, deleteProperty, object,
    array, closure, construct, unary, binary, branch]

def PrimOp.all : List PrimOp :=
  [literal, code, global, receiver, callee, trap, ret, cacheRet, phi, toPhi, read, write,
    readIndexed, writeIndexed, fill, heapTop, heapLimit, setHeapTop, alignSize, arg, stubArg,
    cacheArg, openArea, push, forward, call, callStub, tailCall, forwardCall, isTrue, isUndefined,
    isSmi, overflowed, compareSmi, testBits, comparePointer, neg, untag, tag, add, sub, mul,
    pointer, addBare]

namespace Op

def info : Op → OpInfo
  | script op => op.info
  | prim op => op.info

def name (op : Op) : String := op.info.name

/-- Whether lowering has nothing left to do for the operation. -/
def isPrim : Op → Bool
  | prim _ => true
  | script _ => false

def all : List Op := ScriptOp.all.map script ++ PrimOp.all.map prim

/-- The operation with a name. -/
def ofName? (text : String) : Option Op := all.find? (·.name == text)

end Op
end ScriptEngine
