import ScriptEngine.Engine.Basic
import ScriptEngine.Graph.Order

/-!
Code generation: from a lowered graph to a program. Constants become words, in the order in
which they are met; that may allocate, and compile stubs and inline caches. Every heap pointer
in the program is recorded.
-/

namespace ScriptEngine.Engine

/-- An area for outgoing arguments. -/
structure ArgumentArea where
  /-- Whether the area has any room at all. -/
  hasRoom : Bool
  /-- Arguments that are still missing; they come last to first. -/
  missing : Nat
  args : List Operand := []
deriving Inhabited

/-- Code generation of one program, as far as it got. -/
structure Emission where
  record : CodeRecord
  /-- Results that exist so far. -/
  defined : Std.TreeSet InstrId := ∅
  areas : List ArgumentArea := []
  /-- Count and start of forwarded arguments. -/
  forwarded : Option (Operand × Int) := none
  condition : Option Condition := none
  /-- The last arithmetic of the block. -/
  lastArithmetic : Option Arithmetic := none
  /-- Values for the parameters of the next blocks, the latest first. -/
  phiArgs : List (InstrId × Operand) := []

abbrev EmitM := StateT Emission CompileM

/-- What code generation needs to know besides the graph. -/
structure EmissionScope where
  graph : Graph
  /-- Word of a constant. -/
  resolve : Const → CompileM Word
  trapOnEntry : Bool

/-- What one instruction adds to its block. -/
inductive Emitted where
  | nothing
  | value (action : Action)
  | effect (action : Action)
  | exit (exit : Exit)

namespace Emission

def ask {α : Type} (question : Except GraphError α) : EmitM α :=
  match question with
  | .ok a => return a
  | .error e => throw (.graph e)

def fail {α : Type} (operation reason : String) : EmitM α := throw (.internal operation reason)

/-- Word of a constant; a pointer in it is recorded. -/
def constant (scope : EmissionScope) (c : Const) : EmitM Word := do
  let w ← scope.resolve c
  match c with
  | .raw _ => return w
  | .weak _ =>
    modify fun s => { s with record.weak := s.record.weak.push w }
    return w
  | _ =>
    if w.isPointer then modify fun s => { s with record.strong := s.record.strong.push w }
    return w

def operand (scope : EmissionScope) (i : Instr) (index : Nat) : EmitM Operand := do
  match ← ask (i.input index) with
  | .value id =>
    if (← get).defined.contains id then return .reg id
    else fail i.op.name (id.name ++ " used before definition")
  | .const c => return .word (← constant scope c)

/-- Close the innermost argument area. -/
def closeArea (operation : String) (argc : Int) : EmitM (List Operand) := do
  match (← get).areas with
  | [] => fail operation "call without alignStack"
  | area :: outer =>
    modify fun s => { s with areas := outer }
    if area.missing ≠ 0 then
      fail operation (toString area.missing ++ " of " ++ toString (Word.ofInt argc).toNat ++
        " arguments not pushed")
    return area.args

/-- Open an area for a bare number of arguments. A negative number counts as the word that it is,
and rounding up the largest word leaves no room. -/
def openArea (argc : Int) : EmitM Unit :=
  let count := if argc < 0 then (Word.ofInt argc).toNat else argc.toNat
  let area := { hasRoom := 0 < count ∧ argc ≠ -1, missing := count }
  modify fun s => { s with areas := area :: s.areas }

def push (value : Operand) : EmitM Unit := do
  match (← get).areas with
  | [] => fail "pushArg" "no open argument area"
  | area :: outer =>
    if area.hasRoom ∧ 0 < area.missing then
      let area := { area with missing := area.missing - 1, args := value :: area.args }
      modify fun s => { s with areas := area :: outer }
    else fail "pushArg" "argument area is full"

def setCondition (condition : Condition) : EmitM Emitted := do
  modify fun s => { s with condition := some condition }
  return .nothing

def compareInput (i : Instr) (index : Nat) : EmitM Cond := do
  match ← ask (i.constInput index) with
  | .cond c => return c
  | other => fail i.op.name ("expected a condition, found " ++ other.render)

/-- Arithmetic whose overflow the block may ask about. -/
def arithmetic (op : Arithmetic) : EmitM Emitted := do
  modify fun s => { s with lastArithmetic := some op }
  return .value (.arithmetic op)

/-- Byte offsets are signed and of 32 bits. -/
def offset32 (n : Int) : Int := Int.bmod n (2 ^ 32)

/-- Offset of a field from a pointer to its object, whose tag is one. -/
def fieldOffset (n : Int) : Int := offset32 (n - 1)

/-- One primitive instruction. -/
def primitive (scope : EmissionScope) (i : Instr) (op : PrimOp) : EmitM Emitted := do
  let operand := operand scope i
  match op with
  | .literal | .code => return .value (.move (← operand 0))
  | .global => return .value .global
  | .receiver => return .value .receiver
  | .callee => return .value .callee
  | .trap => return .effect .trap
  | .ret | .cacheRet => return .exit (.ret (← operand 0))
  | .phi => return .nothing
  | .toPhi =>
    let phi ← ask (i.valueInput 0)
    let value ← operand 1
    modify fun s => { s with phiArgs := (phi, value) :: s.phiArgs }
    return .nothing
  | .read =>
    let object ← operand 0
    let offset ← ask (i.rawInput 1)
    return .value (.read object (fieldOffset offset))
  | .write =>
    let object ← operand 0
    let offset ← ask (i.rawInput 1)
    return .effect (.write object (fieldOffset offset) (← operand 2))
  | .readIndexed =>
    let object ← operand 0
    let index ← operand 1
    let scale ← ask (i.rawInput 3)
    let base ← ask (i.rawInput 2)
    return .value (.readIndexed object index (fieldOffset base) scale)
  | .writeIndexed =>
    let object ← operand 0
    let index ← operand 1
    let scale ← ask (i.rawInput 3)
    let base ← ask (i.rawInput 2)
    return .effect (.writeIndexed object index (fieldOffset base) scale (← operand 4))
  | .fill =>
    let object ← operand 0
    let offset ← ask (i.rawInput 1)
    let count ← operand 2
    return .effect (.fill object (offset - 1) count (← operand 3))
  | .heapTop => return .value .heapTop
  | .heapLimit => return .value .heapLimit
  | .setHeapTop => return .effect (.setHeapTop (← operand 0))
  | .alignSize => return .value (.alignSize (← operand 0))
  | .arg =>
    let index ← ask (i.rawInput 0)
    return .value (.arg index (← constant scope .undefined))
  | .stubArg | .cacheArg =>
    let index ← ask (i.rawInput 0)
    return .value (.bareArg (offset32 (index * 8)))
  | .openArea =>
    openArea (← ask (i.rawInput 0))
    return .nothing
  | .push =>
    push (← operand 0)
    return .nothing
  | .forward =>
    let argc ← operand 0
    let start ← ask (i.rawInput 1)
    modify fun s => { s with forwarded := some (argc, start) }
    return .nothing
  | .call =>
    let callee ← operand 0
    let receiver ← operand 1
    let argc ← ask (i.rawInput 2)
    let args ← closeArea "call" argc
    return .value (.call callee receiver args argc)
  | .callStub =>
    let target ← operand 0
    let argc ← ask (i.rawInput 1)
    let args ← closeArea "callStub" argc
    let receiver ← constant scope .undefined
    return .value (.call target (.word receiver) args argc)
  | .tailCall => return .exit (.tailCall (← operand 0))
  | .forwardCall =>
    let callee ← operand 0
    let receiver ← operand 1
    match (← get).forwarded with
    | none => fail "smiCall" "no repushArgs before call"
    | some (argc, start) =>
      modify fun s => { s with forwarded := none }
      return .value (.forwardCall callee receiver argc start)
  | .isTrue =>
    let value ← operand 0
    setCondition (.compare .eq value (.word (← constant scope (.bool true))))
  | .isUndefined =>
    let value ← operand 0
    setCondition (.compare .eq value (.word (← constant scope .undefined)))
  | .isSmi => setCondition (.isSmi (← operand 0))
  | .overflowed =>
    match (← get).lastArithmetic with
    | none => fail "checkOverflow" "no arithmetic op before the check"
    | some op =>
      modify fun s => { s with lastArithmetic := none }
      setCondition (.overflow op)
  | .compareSmi | .comparePointer =>
    let a ← operand 0
    let b ← operand 1
    let cond ← compareInput i 2
    setCondition (.compare cond a b)
  | .testBits =>
    let value ← operand 0
    let mask ← ask (i.rawInput 1)
    setCondition (.testBits value (.ofInt mask))
  | .neg => arithmetic (.neg (← operand 0))
  | .untag => return .value (.untag (← operand 0))
  | .tag => return .value (.tag (← operand 0))
  | .add =>
    let a ← operand 0
    arithmetic (.add a (← operand 1))
  | .sub =>
    let a ← operand 0
    arithmetic (.sub a (← operand 1))
  | .mul =>
    let a ← operand 0
    arithmetic (.mul a (← operand 1))
  | .pointer => return .value (.pointer (← operand 0))
  | .addBare =>
    let a ← operand 0
    return .value (.addBare a (← operand 1))

/-- The instructions of a block, up to one that ends it. -/
def instructions (scope : EmissionScope) (block : BlockId) :
    List InstrId → List MachineInstr → EmitM (List MachineInstr × Option Exit)
  | [], body => return (body.reverse, none)
  | id :: rest, body => do
    let i ← ask (scope.graph.instr id)
    match i.op with
    | .script _ => fail i.op.name (i.id.name ++ " reached code generation unlowered")
    | .prim op =>
      match ← primitive scope i op with
      | .nothing => instructions scope block rest body
      | .effect action => instructions scope block rest (⟨none, action⟩ :: body)
      | .value action =>
        modify fun s => { s with defined := s.defined.insert i.id }
        instructions scope block rest (⟨some i.id, action⟩ :: body)
      | .exit exit =>
        match rest with
        | [] => return (body.reverse, some exit)
        | next :: _ => fail "codegen" (next.name ++ " follows a terminator in " ++ block.name)

/-- The edge to a block, with values for all of its parameters. -/
def edge (scope : EmissionScope) (target : BlockId) : EmitM Edge := do
  let phis ← ask (scope.graph.phis target)
  let given := (← get).phiArgs
  let args ← phis.mapM fun phi =>
    match given.lookup phi with
    | some value => return (phi, value)
    | none => fail "toPhi" ("no value for " ++ phi.name ++ " on edge to " ++ target.name)
  return { target, args }

/-- How a block ends that no instruction ends. -/
def fallThrough (scope : EmissionScope) (block : BlockId) : EmitM Exit := do
  match (← ask (scope.graph.block block)).successors with
  | [target] => return .jump (← edge scope target)
  | [ifTrue, ifFalse] =>
    match (← get).condition with
    | none => fail "codegen" (block.name ++ " branches without a condition")
    | some condition =>
      let ifTrue ← edge scope ifTrue
      return .branch condition ifTrue (← edge scope ifFalse)
  | _ => fail "codegen" (block.name ++ " ends without a terminator")

def block (scope : EmissionScope) (id : BlockId) : EmitM MachineBlock := do
  modify fun s => { s with condition := none, lastArithmetic := none, phiArgs := [] }
  let params ← ask (scope.graph.phis id)
  if id.index ≠ 0 then
    modify fun s => { s with defined := params.foldl (·.insert ·) s.defined }
  let instrs := (← ask (scope.graph.block id)).instrs
  let (body, ended) ← instructions scope id instrs []
  let exit ← match ended with
    | some exit => pure exit
    | none => fallThrough scope id
  return { id, params, body, exit }

end Emission

/-- The program of a lowered graph, and the pointers in it. -/
def emitProgram (scope : EmissionScope) : CompileM (Program × CodeRecord) := do
  let order ← match scope.graph.reversePostorder with
    | .ok order => pure order
    | .error e => throw (.graph e)
  -- Every block must list its parameters before any code is generated.
  for id in order do
    match scope.graph.phis id with
    | .ok _ => pure ()
    | .error e => throw (.graph e)
  let start : Emission := { record := { name := scope.graph.name } }
  let (blocks, done) ← (order.mapM (Emission.block scope)).run start
  return ({ name := scope.graph.name, trapOnEntry := scope.trapOnEntry, blocks }, done.record)

end ScriptEngine.Engine
