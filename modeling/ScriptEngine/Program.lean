import ScriptEngine.Graph.Basic

/-!
Programs of the machine: what code generation makes of a lowered graph. Constants have become
words, conditions stand at the branches that use them, and outgoing arguments stand at their
calls. A register holds the result of the instruction with the same number.
-/

namespace ScriptEngine

inductive Operand where
  | reg (id : InstrId)
  | word (w : Word)
deriving DecidableEq, Inhabited

/-- Arithmetic that can overflow. -/
inductive Arithmetic where
  | neg (a : Operand)
  | add (a b : Operand)
  | sub (a b : Operand)
  | mul (a b : Operand)
deriving DecidableEq, Inhabited

/-- Condition of a branch. -/
inductive Condition where
  | compare (cond : Cond) (a b : Operand)
  | isSmi (a : Operand)
  | testBits (a : Operand) (mask : Word)
  | overflow (op : Arithmetic)
deriving DecidableEq, Inhabited

/-- How a result is computed. -/
inductive Action where
  | move (a : Operand)
  | global
  | receiver
  | callee
  | read (object : Operand) (offset : Int)
  | readIndexed (object index : Operand) (offset scale : Int)
  | heapTop
  | heapLimit
  | alignSize (a : Operand)
  /-- An argument, or the given word past the count. -/
  | arg (index : Int) (absent : Word)
  /-- An argument at a byte offset, unchecked. -/
  | bareArg (offset : Int)
  | arithmetic (op : Arithmetic)
  | untag (a : Operand)
  | tag (a : Operand)
  | pointer (a : Operand)
  | addBare (a b : Operand)
  | call (target receiver : Operand) (args : List Operand) (argc : Int)
  /-- A call with arguments of the caller, from a bare index on. -/
  | forwardCall (target receiver argc : Operand) (start : Int)
  | trap
  | write (object : Operand) (offset : Int) (value : Operand)
  | writeIndexed (object index : Operand) (offset scale : Int) (value : Operand)
  | fill (object : Operand) (offset : Int) (count value : Operand)
  | setHeapTop (a : Operand)
deriving DecidableEq, Inhabited

/-- An action, and the register for its result if it has one. -/
structure MachineInstr where
  target : Option InstrId
  action : Action
deriving DecidableEq, Inhabited

/-- A jump that fills the parameters of its block. -/
structure Edge where
  target : BlockId
  args : List (InstrId × Operand)
deriving DecidableEq, Inhabited

inductive Exit where
  | ret (a : Operand)
  /-- Continue in the code of a function, with the callee and the arguments of this call. -/
  | tailCall (target : Operand)
  | jump (edge : Edge)
  | branch (condition : Condition) (ifTrue ifFalse : Edge)
deriving DecidableEq, Inhabited

structure MachineBlock where
  id : BlockId
  params : List InstrId
  body : List MachineInstr
  exit : Exit
deriving DecidableEq, Inhabited

/-- Blocks in the order of generation, the entry first. -/
structure Program where
  name : String
  trapOnEntry : Bool
  blocks : List MachineBlock
deriving Inhabited

/-! ### Registers -/

def Operand.registers : Operand → List InstrId
  | reg id => [id]
  | word _ => []

def Arithmetic.operands : Arithmetic → List Operand
  | neg a => [a]
  | add a b | sub a b | mul a b => [a, b]

def Condition.operands : Condition → List Operand
  | compare _ a b => [a, b]
  | isSmi a | testBits a _ => [a]
  | overflow op => op.operands

def Action.operands : Action → List Operand
  | move a | read a _ | alignSize a | untag a | tag a | pointer a | setHeapTop a => [a]
  | readIndexed a b _ _ | addBare a b => [a, b]
  | arithmetic op => op.operands
  | call a b args _ => a :: b :: args
  | forwardCall a b c _ => [a, b, c]
  | write a _ b => [a, b]
  | writeIndexed a b _ _ c => [a, b, c]
  | fill a _ b c => [a, b, c]
  | global | receiver | callee | heapTop | heapLimit | arg _ _ | bareArg _ | trap => []

def Exit.edges : Exit → List Edge
  | jump e => [e]
  | branch _ e f => [e, f]
  | ret _ | tailCall _ => []

def Exit.operands : Exit → List Operand
  | ret a | tailCall a => [a]
  | jump e => e.args.map (·.2)
  | branch c e f => c.operands ++ e.args.map (·.2) ++ f.args.map (·.2)

namespace MachineBlock

/-- Registers that the block fills. -/
def defines (b : MachineBlock) : List InstrId := b.params ++ b.body.filterMap (·.target)

/-- Registers that the block reads. -/
def uses (b : MachineBlock) : List InstrId :=
  (b.body.flatMap (·.action.operands) ++ b.exit.operands).flatMap Operand.registers

def successors (b : MachineBlock) : List BlockId := b.exit.edges.map (·.target)

end MachineBlock

namespace Program

def block? (p : Program) (id : BlockId) : Option MachineBlock := p.blocks.find? (·.id == id)

/-! ### Dominance -/

/-- For each block, blocks that are on every way to it, as far as known. -/
abbrev Dominators := List (BlockId × List BlockId)

/-- Refine what is known: a block dominates another if it is the other, or dominates all of its
predecessors. Everything dominates a block that control never reaches. -/
def refine (p : Program) (known : Dominators) : Dominators :=
  p.blocks.map fun b =>
    if b.id.index = 0 then (b.id, [b.id])
    else
      let before := p.blocks.filter fun q => b.id ∈ q.successors
      let sets := before.map fun q => (known.lookup q.id).getD []
      let common := match sets with
        | [] => (known.lookup b.id).getD []
        | first :: rest => first.filter fun d => rest.all (d ∈ ·)
      (b.id, b.id :: common.filter (· ≠ b.id))

/-- Refine until nothing changes. -/
def refineUntilStable (p : Program) : Nat → Dominators → Dominators
  | 0, known => known
  | fuel + 1, known =>
    let next := p.refine known
    if (next.map (·.2.length)) = (known.map (·.2.length)) then known
    else refineUntilStable p fuel next

def dominators (p : Program) : Dominators :=
  let ids := p.blocks.map (·.id)
  p.refineUntilStable (ids.length * ids.length + 1) (ids.map fun id => (id, ids))

/-- Whether every register is filled on all ways to where it is read, and no edge leads back to
the entry, whose parameters are those of the call. -/
def isValid (p : Program) : Bool :=
  let dominators := p.dominators
  p.blocks.all fun b =>
    let above := (dominators.lookup b.id).getD []
    let defined := (p.blocks.filter (·.id ∈ above)).flatMap (·.defines)
    b.uses.all (· ∈ defined) && b.successors.all (·.index ≠ 0) &&
      (b.id.index ≠ 0 || b.params.isEmpty)

end Program
end ScriptEngine
