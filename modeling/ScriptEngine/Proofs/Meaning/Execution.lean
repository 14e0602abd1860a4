import ScriptEngine.Graph.Basic
import ScriptEngine.Syntax.Tree

/-!
Execution of instruction graphs as they come from source text. Whatever a script can do to the
world is a request to an answerer, which may be anything; execution itself only moves values
between registers. A graph runs block by block, and a parameter of a block takes the value that
the block before it passed.
-/

namespace ScriptEngine.Meaning

/-- An operation that only the world can answer, with its operands. -/
inductive Request (V : Type) where
  | loadGlobal (name : String)
  | storeGlobal (name : String) (value : V)
  | deleteGlobal (name : String)
  | loadProperty (object key : V)
  | storeProperty (object key value : V)
  | deleteProperty (object key : V)
  | object
  | array (length : Nat)
  | closure (f : Syntax.Function)
  | call (callee receiver : V) (args : List V)
  | construct (callee : V) (args : List V)
  | unary (op : UnaryOp) (value : V)
  | binary (op : BinaryOp) (left right : V)
  | trap

/-- Answers to requests; they may depend on everything that was asked before. -/
structure Answerer (V σ : Type) where
  constant : Const → V
  answer : Request V → σ → V × σ
  /-- Truth of a value at a branch. -/
  truth : V → σ → Bool × σ

/-- What a call passes to a function. -/
structure Inputs (V : Type) where
  receiver : V
  args : List V

namespace Answerer

variable {V σ : Type} (A : Answerer V σ)

def undefined : V := A.constant .undefined

/-- An argument; there are no others than `undefined` past the last. -/
def argument (inputs : Inputs V) (index : Nat) : V := inputs.args.getD index A.undefined

end Answerer

/-- State of an execution inside a block. -/
structure Activity (V σ : Type) where
  regs : InstrId → V
  world : σ
  /-- Pushed arguments, the first one on top. -/
  pushed : List V := []
  /-- Truth of the last value that was branched on in the block. -/
  condition : Option Bool := none
  /-- What the block before passed to the parameters of this one. -/
  received : List (InstrId × V) := []
  /-- What this block passes to the parameters of the next one. -/
  passed : List (InstrId × V) := []

namespace Activity

variable {V σ : Type}

def setReg (s : Activity V σ) (id : InstrId) (value : V) : Activity V σ :=
  { s with regs := fun i => if i = id then value else s.regs i }

/-- The state at the start of the next block. -/
def enter (s : Activity V σ) : Activity V σ :=
  { s with condition := none, received := s.passed, passed := [] }

end Activity

/-- How the instructions of a block ended. -/
inductive Ending (V : Type) where
  | fell
  | returned (value : V)

section

variable {V σ : Type} (A : Answerer V σ) (functions : Nat → Syntax.Function) (g : Graph)
  (inputs : Inputs V)

def operand (s : Activity V σ) : Input → V
  | .value id => s.regs id
  | .const c => A.constant c

/-- The request that an operation makes, and the number of pushed arguments that it takes. -/
def request? (s : Activity V σ) : Op → List Input → Option (Request V × Nat)
  | .script .loadGlobal, [.const (.text name)] => some (.loadGlobal name, 0)
  | .script .storeGlobal, [.const (.text name), v] => some (.storeGlobal name (operand A s v), 0)
  | .script .deleteGlobal, [.const (.text name)] => some (.deleteGlobal name, 0)
  | .script .loadProperty, [o, k] => some (.loadProperty (operand A s o) (operand A s k), 0)
  | .script .storeProperty, [o, k, v] =>
    some (.storeProperty (operand A s o) (operand A s k) (operand A s v), 0)
  | .script .deleteProperty, [o, k] => some (.deleteProperty (operand A s o) (operand A s k), 0)
  | .script .object, [] => some (.object, 0)
  | .script .array, [.const (.raw n)] => some (.array n.toNat, 0)
  | .script .closure, [.const (.function index)] => some (.closure (functions index), 0)
  | .script .construct, [f, .const (.raw n)] =>
    if n.toNat ≤ s.pushed.length then
      some (.construct (operand A s f) (s.pushed.take n.toNat), n.toNat)
    else none
  | .script .unary, [.const (.unary op), v] => some (.unary op (operand A s v), 0)
  | .script .binary, [.const (.binary op), l, r] =>
    some (.binary op (operand A s l) (operand A s r), 0)
  | .prim .call, [f, r, .const (.raw n)] =>
    if n.toNat ≤ s.pushed.length then
      some (.call (operand A s f) (operand A s r) (s.pushed.take n.toNat), n.toNat)
    else none
  | .prim .trap, [] => some (.trap, 0)
  | _, _ => none

/-- Ask the world, and keep its answer in a register. -/
def ask (s : Activity V σ) (id : InstrId) (r : Request V) (taken : Nat) : Activity V σ :=
  let (value, world) := A.answer r s.world
  { s.setReg id value with world, pushed := s.pushed.drop taken }

/-- One instruction that does not end its function; `none` if it makes no sense where it is. -/
def perform (s : Activity V σ) (id : InstrId) (op : Op) (operands : List Input) :
    Option (Activity V σ) :=
  match op, operands with
  | .prim .literal, [.const c] => some (s.setReg id (A.constant c))
  | .prim .receiver, [] => some (s.setReg id inputs.receiver)
  | .prim .arg, [.const (.raw n)] => some (s.setReg id (A.argument inputs n.toNat))
  | .prim .phi, [] => (s.received.lookup id).map (s.setReg id)
  | .prim .toPhi, [.value phi, v] => some { s with passed := (phi, operand A s v) :: s.passed }
  | .prim .push, [v] => some { s with pushed := operand A s v :: s.pushed }
  | .script .branch, [v] =>
    let (holds, world) := A.truth (operand A s v) s.world
    some { s with condition := some holds, world }
  | op, operands => (request? A functions s op operands).map fun (r, taken) => ask A s id r taken

/-- Run instructions of a block up to one that returns. -/
def runBody : List InstrId → Activity V σ → Option (Ending V × Activity V σ)
  | [], s => some (.fell, s)
  | id :: rest, s => do
    let i ← g.instrs[id.index]?
    match i.op, i.inputs with
    | .prim .ret, [v] => some (.returned (operand A s v), s)
    | op, operands => runBody rest (← perform A functions inputs s id op operands)

/-- The block that follows another one. -/
def next? : List BlockId → Option Bool → Option BlockId
  | [target], _ => some target
  | [ifTrue, ifFalse], some holds => some (if holds then ifTrue else ifFalse)
  | _, _ => none

/-- Run from a place in a block on: after its first `done` instructions. No more than `jumps` blocks
are entered after this one. -/
def runAt : Nat → BlockId → Nat → Activity V σ → Option (V × σ)
  | jumps, id, done, s => do
    let block ← g.blocks[id.index]?
    match ← runBody A functions g inputs (block.instrs.drop done) s with
    | (.returned value, s) => some (value, s.world)
    | (.fell, s) =>
      let target ← next? block.successors s.condition
      match jumps with
      | 0 => none
      | jumps + 1 => runAt jumps target 0 s.enter

/-- Run a graph from its entry on, entering no more blocks than it has. -/
def runGraph (s : σ) : Option (V × σ) :=
  runAt A functions g inputs g.blocks.size ⟨0⟩ 0 { regs := fun _ => A.undefined, world := s }

end

end ScriptEngine.Meaning
