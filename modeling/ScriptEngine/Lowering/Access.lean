import ScriptEngine.Lowering.Basic

/-!
Lowering of globals and properties. A global is a property of the global object. A property is
read or written in two calls: the inline cache of the site answers with a slot, and a stub then
uses the slot, or asks the host if there is none.
-/

namespace ScriptEngine.Lowering

/-- The operation on properties that an operation on globals stands for. -/
def propertyOp? : Op → Option ScriptOp
  | .script .loadGlobal => some .loadProperty
  | .script .storeGlobal => some .storeProperty
  | .script .deleteGlobal => some .deleteProperty
  | _ => none

def lowerGlobals (block : BlockId) : LowerM Unit :=
  forBlock block fun i => do
    match propertyOp? i.op with
    | none => return ()
    | some op =>
      let name ← ask (i.input 0)
      let global ← insertBefore i.id .global []
      let key ← insertBefore i.id .literal [name]
      replace i.id (.script op) (.value global :: .value key :: i.inputs.drop 1)

/-- Whether the key at a site never changes. -/
def isLiteral (key : Input) : LowerM Bool := do
  match key with
  | .const _ => return true
  | .value id => return (← instrOf id).op == .prim .literal

/-- Insert the call of a new inline cache; the answer is its result. -/
def lookupSlot (anchor : InstrId) (object key : Input) (update : Bool) : LowerM InstrId := do
  let kind : CacheKind := if ← isLiteral key then .fixed else .normal
  let update ← literalBefore anchor (.bool update)
  pushBefore anchor update
  pushBefore anchor key
  pushBefore anchor object
  insertBefore anchor .callStub [.const (.cache kind), raw 3]

def lowerProperties (block : BlockId) : LowerM Unit :=
  forBlock block fun i => do
    match i.op with
    | .script .loadProperty =>
      let object ← ask (i.input 0)
      let key ← ask (i.input 1)
      let slot ← lookupSlot i.id object key false
      pushBefore i.id slot
      pushBefore i.id key
      pushBefore i.id object
      toStubCall i.id "loadPropertySlot" 3
    | .script .storeProperty =>
      let object ← ask (i.input 0)
      let key ← ask (i.input 1)
      let value ← ask (i.input 2)
      let slot ← lookupSlot i.id object key true
      pushBefore i.id value
      pushBefore i.id slot
      pushBefore i.id key
      pushBefore i.id object
      toStubCall i.id "storePropertySlot" 4
    | .script .deleteProperty =>
      let object ← ask (i.input 0)
      let key ← ask (i.input 1)
      pushBefore i.id key
      pushBefore i.id object
      toStubCall i.id "deletePropertySlot" 2
    | _ => return ()

end ScriptEngine.Lowering
