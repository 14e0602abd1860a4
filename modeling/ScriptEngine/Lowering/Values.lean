import ScriptEngine.Lowering.Basic

/-!
Lowering of allocations, operators and conditions to calls of stubs.
-/

namespace ScriptEngine.Lowering

def lowerClosures (block : BlockId) : LowerM Unit :=
  forBlock block fun i => do
    if i.op = .script .closure then
      let index ← ask (i.input 0)
      let code ← insertBefore i.id .code [index]
      pushBefore i.id code
      toStubCall i.id "allocFn" 1

/-- The small integer that an input always has. -/
def smiOf? (input : Input) : LowerM (Option Int) := do
  let constant ← match input with
    | .const c => pure (some c)
    | .value id =>
      let i ← instrOf id
      if i.op = .prim .literal then pure (some (← ask (i.constInput 0))) else pure none
  match constant with
  | some (.smi n) => return some n
  | _ => return none

/-- Let the stores that fill an array literal write their slots directly: slots of a dense object
are indices. The first other use of the array ends this, since its storage may change there. -/
def lowerElements (array : InstrId) (length : Int) : List InstrId → LowerM Unit
  | [] => return ()
  | id :: rest => do
    let i ← instrOf id
    if .value array ∉ i.inputs then lowerElements array length rest
    else if i.op ≠ .script .storeProperty then return ()
    else if (← ask (i.input 0)) ≠ .value array then return ()
    else
      let key ← ask (i.input 1)
      let value ← ask (i.input 2)
      match ← smiOf? key with
      | none => return ()
      | some index =>
        if 0 ≤ index ∧ index < length then
          let slot ← literalBefore id (.smi index)
          pushBefore id value
          pushBefore id slot
          pushBefore id key
          pushBefore id array
          toStubCall id "storePropertySlot" 4
          lowerElements array length rest
        else return ()

def lowerObject (block : BlockId) (i : Instr) : LowerM Unit := do
  match i.op with
  | .script .object => toStubCall i.id "allocObject" 0
  | .script .array =>
    let count ← ask (i.rawInput 0)
    let length ← literalBefore i.id (.smi count)
    pushBefore i.id length
    toStubCall i.id "allocArray" 1
    let after := (← ask ((← get).block block)).instrs.dropWhile (· ≠ i.id)
    lowerElements i.id count (after.drop 1)
  | .script .construct =>
    -- The pushes of the arguments stand before the instruction already.
    let callee ← ask (i.input 0)
    let argc ← ask (i.rawInput 1)
    if argc < 0 then throw (.internal "new" "negative argument count")
    let count ← literalBefore i.id (.smi argc)
    pushBefore i.id callee
    pushBefore i.id count
    toStubCall i.id "new" (argc.toNat + 2)
  | _ => return ()

def lowerObjects (block : BlockId) : LowerM Unit := forBlock block (lowerObject block)

def lowerOperators (block : BlockId) : LowerM Unit :=
  forBlock block fun i => do
    match i.op with
    | .script .unary =>
      match ← ask (i.constInput 0) with
      | .unary op =>
        pushBefore i.id (← ask (i.input 1))
        toStubCall i.id ("unary/" ++ op.symbol) 1
      | _ => throw (.internal "unary" "operator input is not a unary op")
    | .script .binary =>
      match ← ask (i.constInput 0) with
      | .binary op =>
        let left ← ask (i.input 1)
        let right ← ask (i.input 2)
        pushBefore i.id right
        pushBefore i.id left
        toStubCall i.id ("binary/" ++ op.symbol) 2
      | _ => throw (.internal "binary" "operator input is not a binary op")
    | _ => return ()

/-- A condition on the truth of a value is one on its boolean. -/
def lowerBranches (block : BlockId) : LowerM Unit :=
  forBlock block fun i => do
    if i.op = .script .branch then
      pushBefore i.id (← ask (i.input 0))
      let boolean ← insertBefore i.id .callStub [.const (.stub "coerce/boolean"), raw 1]
      replace i.id (.prim .isTrue) [.value boolean]

end ScriptEngine.Lowering
