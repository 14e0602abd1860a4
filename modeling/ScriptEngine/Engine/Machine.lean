import ScriptEngine.Engine.Host

/-!
Execution of programs. An activation has a callee, a receiver, arguments and registers; memory
and everything else belongs to the engine. A call inside a program runs the machine again, one
level deeper.
-/

namespace ScriptEngine.Engine

/-- What a call passes on. -/
structure Activation where
  callee : Word
  receiver : Word
  args : Array Word
  /-- Number of arguments, as the caller states it. -/
  argc : Word
deriving Inhabited

/-- Contents of registers, by instruction number. -/
abbrev Registers := Std.TreeMap InstrId Word

/-- How a call is made: the entry of the code, and what is passed to it. -/
abbrev Caller := Nat → Activation → RunM Word

namespace Machine

def eval (regs : Registers) : Operand → Word
  | .reg id => regs.getD id default
  | .word w => w

/-- Result of arithmetic, and whether it overflowed. The second factor is untagged. -/
def compute (regs : Registers) : Arithmetic → Word × Bool
  | .neg a =>
    let a := eval regs a
    (a.neg, a.negOverflows)
  | .add a b =>
    let a := eval regs a
    let b := eval regs b
    (a.add b, a.addOverflows b)
  | .sub a b =>
    let a := eval regs a
    let b := eval regs b
    (a.sub b, a.subOverflows b)
  | .mul a b =>
    let a := eval regs a
    let b := (eval regs b).untag
    (a.mul b, a.mulOverflows b)

def holds (regs : Registers) : Condition → Bool
  | .compare cond a b => cond.holds (eval regs a) (eval regs b)
  | .isSmi a => (eval regs a).isSmi
  | .testBits a mask => ((eval regs a).and mask).bits != 0
  | .overflow op => (compute regs op).2

/-- The address at a signed distance from a word. -/
def addressAt (base : Word) (offset : Int) : Nat := (base.add (.ofInt offset)).toNat

/-- The word at a signed index of the outgoing arguments; nothing is known of others. -/
def argumentAt (args : Array Word) (index : Int) : Word :=
  if 0 ≤ index then args.getD index.toNat default else default

def load (address : Nat) : RunM Word := return (← get).heap.memory.load address

/-- A debug trap. -/
def trap : RunM Unit := do
  if (← get).config.stopAtTrap then throw .trapped
  modify fun e => { e with traps := e.traps + 1 }

/-- Change the memory in place. -/
def changeMemory (f : Memory → Memory) : RunM Unit := modify fun e =>
  let memory := e.heap.memory
  let e := { e with heap.memory := {} }
  { e with heap.memory := f memory }

/-- Address of an element: the index is a small integer. -/
def elementAddress (regs : Registers) (object index : Operand) (offset scale : Int) : Nat :=
  let distance := (eval regs index).untag.signed * scale
  addressAt ((eval regs object).add (.ofInt distance)) offset

/-- Number of words between two addresses, rounded up. -/
def wordsBetween (start stop : Nat) : Nat := (stop - start + 7) / 8

/-- Call the code of a function object. -/
def callFunction (call : Caller) (target : Word) (activation : Activation) : RunM Word := do
  let code ← load (addressAt target (Layout.Function.code - 1))
  let entry ← load (addressAt code (Layout.Code.entry - 1))
  call entry.toNat activation

/-- Perform an action; the answer is its result, if it has one. -/
def perform (call : Caller) (self : Activation) (regs : Registers) : Action → RunM Word
  | .move a => return eval regs a
  | .global => return (← get).global
  | .receiver => return self.receiver
  | .callee => return self.callee
  | .read object offset => load (addressAt (eval regs object) offset)
  | .readIndexed object index offset scale => load (elementAddress regs object index offset scale)
  | .heapTop => return .ofNat (← get).heap.young.cursor.top
  | .heapLimit => return .ofNat (← get).heap.young.cursor.limit
  | .alignSize a => return .ofNat (Layout.align (eval regs a).toNat)
  | .arg index absent =>
    return if (Word.ofInt index).toNat < self.argc.toNat then argumentAt self.args index else absent
  | .bareArg offset => return argumentAt self.args (offset / 8)
  | .arithmetic op => return (compute regs op).1
  | .untag a => return (eval regs a).untag
  | .tag a => return (eval regs a).tag
  | .pointer a => return (eval regs a).or ⟨1⟩
  | .addBare a b => return (eval regs a).add (eval regs b)
  | .call target receiver args argc =>
    let target := eval regs target
    callFunction call target
      { callee := target, receiver := eval regs receiver,
        args := (args.map (eval regs)).toArray, argc := .ofInt argc }
  | .forwardCall target receiver argc start =>
    let target := eval regs target
    callFunction call target
      { callee := target, receiver := eval regs receiver,
        args := self.args.extract start.toNat self.args.size, argc := eval regs argc }
  | .trap => do
    trap
    return default
  | .write object offset value => do
    changeMemory (·.store (addressAt (eval regs object) offset) (eval regs value))
    return default
  | .writeIndexed object index offset scale value => do
    changeMemory (·.store (elementAddress regs object index offset scale) (eval regs value))
    return default
  | .fill object offset count value => do
    let start := addressAt (eval regs object) offset
    let stop := addressAt (.ofNat start) ((eval regs count).signed * 8)
    changeMemory (·.fill start (wordsBetween start stop) (eval regs value))
    return default
  | .setHeapTop a => do
    modify fun e => { e with heap.young.cursor.top := (eval regs a).toNat }
    return default

/-- Run the instructions of a block. -/
def runBody (call : Caller) (self : Activation) : List MachineInstr → Registers → RunM Registers
  | [], regs => return regs
  | i :: rest, regs => do
    let result ← perform call self regs i.action
    match i.target with
    | some id => runBody call self rest (regs.insert id result)
    | none => runBody call self rest regs

/-- Fill the parameters of the next block, all at once. -/
def pass (regs : Registers) (edge : Edge) : Registers :=
  (edge.args.map fun (id, a) => (id, eval regs a)).foldl (fun regs (id, w) => regs.insert id w) regs

/-- Run from a block on. Each jump takes one unit of `jumps`. -/
def runFrom (call : Caller) (program : Program) (self : Activation) :
    Nat → BlockId → Registers → RunM Word
  | 0, _, _ => throw .exhausted
  | jumps + 1, id, regs => do
    match program.block? id with
    | none => throw .wildJump
    | some block =>
      let regs ← runBody call self block.body regs
      match block.exit with
      | .ret a => return eval regs a
      | .tailCall target => callFunction call (eval regs target) self
      | .jump edge => runFrom call program self jumps edge.target (pass regs edge)
      | .branch condition ifTrue ifFalse =>
        let edge := if holds regs condition then ifTrue else ifFalse
        runFrom call program self jumps edge.target (pass regs edge)

/-- Jumps that one activation may take. -/
def maxJumps : Nat := 100000000

/-- Arguments that the host reads: as many as the caller states. -/
def hostArguments (self : Activation) : List Word :=
  (List.range self.argc.toNat).map fun i => self.args.getD i default

/-- Enter the code at an entry, with at most `depth` calls nested in each other. -/
def enter : Nat → Caller
  | 0, _, _ => throw .exhausted
  | depth + 1, entry, self => do
    match (← get).routines[entry]? with
    | none => throw .wildJump
    | some .host => callHost (hostArguments self)
    | some (.program program) =>
      if program.trapOnEntry then trap
      runFrom (enter depth) program self maxJumps ⟨0⟩ ∅

/-- Calls that may be nested in each other. -/
def maxDepth : Nat := 20000

end Machine

/-- Call a function from outside. An error that a callback recorded is the outcome. -/
def invoke (function receiver : Word) (args : List Word) : RunM Word := do
  let code ← askHeap .heap (·.functionCode function)
  let entry ← askHeap .heap (·.codeEntry code)
  modify fun e => { e with pending := none }
  let result ← Machine.enter Machine.maxDepth entry
    { callee := function, receiver, args := args.toArray, argc := .ofNat args.length }
  match (← get).pending with
  | some err =>
    modify fun e => { e with pending := none }
    throw err
  | none => return result

end ScriptEngine.Engine
