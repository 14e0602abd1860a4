import ScriptEngine.Lowering.Basic

/-!
Prologues of calls. A block is walked backwards: a call expects as many pushes as it has
arguments, each push counts for the call that expects one most recently, and in front of the
first push of a call an area for its arguments is opened. The callee of a function call is
checked there as well.
-/

namespace ScriptEngine.Lowering

/-- A call that still expects pushes. -/
structure PendingCall where
  call : InstrId
  remaining : Nat

/-- Insert the prologue of a call before an instruction. -/
def prologue (call anchor : InstrId) : LowerM Unit := do
  let i ← instrOf call
  match i.op with
  | .prim .call =>
    let argc ← ask (i.rawInput 2)
    let callee ← ask (i.input 0)
    discard (insertBefore anchor .openArea [raw 1])
    pushBefore anchor callee
    let checked ← insertBefore anchor .callStub [.const (.stub "checkFunction"), raw 1]
    discard (insertBefore anchor .openArea [raw argc.toNat])
    replace call (.prim .call) (.value checked :: i.inputs.drop 1)
  | _ =>
    let argc ← ask (i.rawInput 1)
    discard (insertBefore anchor .openArea [raw argc.toNat])

/-- One instruction, met from behind. -/
def expectPushes (pending : List PendingCall) (i : Instr) : LowerM (List PendingCall) := do
  let expect (index : Nat) : LowerM (List PendingCall) := do
    let argc ← ask (i.rawInput index)
    if argc < 0 then throw (.internal i.op.name "negative argument count")
    else if argc = 0 then
      prologue i.id i.id
      return pending
    else return ⟨i.id, argc.toNat⟩ :: pending
  match i.op with
  | .prim .call => expect 2
  | .prim .callStub => expect 1
  | .prim .push =>
    match pending with
    | [] => throw (.internal "pushArg" (i.id.name ++ " is not followed by a call"))
    | top :: outer =>
      if top.remaining ≤ 1 then
        prologue top.call i.id
        return outer
      else return { top with remaining := top.remaining - 1 } :: outer
  | _ => return pending

def lowerCalls (block : BlockId) : LowerM Unit := do
  let instrs := (← ask ((← get).block block)).instrs
  let pending ← instrs.reverse.foldlM (fun pending id => do
    expectPushes pending (← instrOf id)) []
  match pending with
  | [] => return ()
  | top :: _ =>
    throw (.internal "call"
      (top.call.name ++ " is missing " ++ toString top.remaining ++ " argument pushes"))

end ScriptEngine.Lowering
