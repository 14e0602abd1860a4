import ScriptEngine.Proofs.Graph.Form
import ScriptEngine.Proofs.Meaning.Execution
import ScriptEngine.Proofs.State

/-!
Execution of instruction graphs at any stage of lowering. Execution moves values between registers,
pushed arguments and parameters of blocks; whatever else an instruction does is up to a world, which
may be anything that reads instructions. So the same graph can be executed by a machine, or by
somebody who only knows what its operations stand for.
-/

namespace ScriptEngine

/-- The bare word at a place of an instruction. -/
def Instr.rawAt (i : Instr) (k : Nat) : Int :=
  match i.inputs[k]? with
  | some (.const (.raw n)) => n
  | _ => 0

theorem Instr.rawInput_eq_ok {i : Instr} {k : Nat} {n : Int} (h : i.rawInput k = .ok n) :
    i.inputs[k]? = some (.const (.raw n)) := by
  unfold Instr.rawInput at h
  split at h
  · cases h
    assumption
  · cases h

theorem Instr.rawAt_of_rawInput {i : Instr} {k : Nat} {n : Int} (h : i.rawInput k = .ok n) :
    i.rawAt k = n := by
  rw [Instr.rawAt, Instr.rawInput_eq_ok h]

/-- Number of pushed arguments that an instruction takes. -/
def Instr.taken (i : Instr) : Nat :=
  match i.op with
  | .prim .call => (i.rawAt 2).toNat
  | .prim .callStub | .script .construct => (i.rawAt 1).toNat
  | _ => 0

/-- Whether the block may ask if the instruction overflowed. -/
def Instr.isArithmetic (i : Instr) : Bool :=
  i.op = .prim .neg || i.op = .prim .add || i.op = .prim .sub || i.op = .prim .mul

namespace Meaning

/-- What the instructions of a graph do. An instruction gets the values at its places; past its
inputs stand the constants that it needs besides. -/
structure World (V ε σ : Type) where
  /-- Value of a constant at a place of an instruction. -/
  const : InstrId → Nat → Const → V
  /-- What an instruction does, with the arguments that it takes. -/
  act : Instr → (Nat → V) → List V → EStateM ε σ V
  /-- The condition that an instruction sets. -/
  test : Instr → (Nat → V) → EStateM ε σ Bool
  /-- Whether arithmetic overflows. -/
  overflows : Instr → (Nat → V) → Bool
  /-- A call with arguments of the caller: callee, receiver, count and start. -/
  forwardCall : V → V → V → Int → EStateM ε σ V
  tailCall : V → EStateM ε σ V
  /-- Contents of registers that were never filled. -/
  blank : V
  /-- An instruction makes no sense where it is. -/
  stuck : ε
  /-- No more jumps are allowed. -/
  exhausted : ε

/-- State of an execution, but for the world. -/
structure Progress (V : Type) where
  regs : InstrId → V
  /-- Pushed arguments, the first one on top. -/
  pushed : List V := []
  /-- Count and start of forwarded arguments. -/
  forwarded : Option (V × Int) := none
  condition : Option Bool := none
  /-- The last arithmetic of the block, and its operands. -/
  arithmetic : Option (Instr × (Nat → V)) := none
  /-- What the block passes to the parameters of the next one. -/
  passed : List (InstrId × V) := []

/-- How the instructions of a block end. -/
inductive Departure (V : Type) where
  | fell (s : Progress V)
  | returned (value : V)

def Progress.setReg {V : Type} (s : Progress V) (id : InstrId) (value : V) : Progress V :=
  { s with regs := fun i => if i = id then value else s.regs i }

namespace World

variable {V ε σ : Type} (W : World V ε σ)

/-- The values at the places of an instruction. -/
def values (s : Progress V) (i : Instr) (k : Nat) : V :=
  match i.inputs[k]? with
  | some (.value id) => s.regs id
  | some (.const c) => W.const i.id k c
  | none => W.const i.id k .undefined

/-- The state after an instruction with a result. -/
def store (s : Progress V) (i : Instr) (value : V) : Progress V :=
  { s with
    regs := if i.op.info.output then (s.setReg i.id value).regs else s.regs
    pushed := s.pushed.drop i.taken
    arithmetic := if i.isArithmetic then some (i, W.values s i) else s.arithmetic }

/-- One instruction that does not end its function. -/
def perform (s : Progress V) (i : Instr) : EStateM ε σ (Progress V) :=
  match i.op with
  | .prim .phi | .prim .openArea => return s
  | .prim .literal | .prim .code => return s.setReg i.id (W.values s i 0)
  | .prim .toPhi =>
    match i.passTarget? with
    | some phi => return { s with passed := (phi, W.values s i 1) :: s.passed }
    | none => throw W.stuck
  | .prim .push => return { s with pushed := W.values s i 0 :: s.pushed }
  | .prim .forward => return { s with forwarded := some (W.values s i 0, i.rawAt 1) }
  | .prim .forwardCall =>
    match s.forwarded with
    | some (argc, start) => do
      let value ← W.forwardCall (W.values s i 0) (W.values s i 1) argc start
      return { s.setReg i.id value with forwarded := none }
    | none => throw W.stuck
  | .prim .overflowed =>
    match s.arithmetic with
    | some (j, values) =>
      return { s with condition := some (W.overflows j values), arithmetic := none }
    | none => throw W.stuck
  | op =>
    if op.info.cond then do
      let holds ← W.test i (W.values s i)
      return { s with condition := some holds }
    else do
      let value ← W.act i (W.values s i) (s.pushed.take i.taken)
      return W.store s i value

/-- Run instructions up to one that ends the function. -/
def runCode : List Instr → Progress V → EStateM ε σ (Departure V)
  | [], s => return .fell s
  | i :: rest, s =>
    match i.op with
    | .prim .ret | .prim .cacheRet => return .returned (W.values s i 0)
    | .prim .tailCall => do return .returned (← W.tailCall (W.values s i 0))
    | _ => do runCode rest (← W.perform s i)

variable {W} in
/-- An instruction that does not end its function. -/
theorem runCode_cons {i : Instr} {s : Progress V} (rest : List Instr) (hret : i.op ≠ .prim .ret)
    (hcache : i.op ≠ .prim .cacheRet) (htail : i.op ≠ .prim .tailCall) :
    W.runCode (i :: rest) s = (do W.runCode rest (← W.perform s i)) := by
  rw [runCode]
  split <;> simp_all

/-- The state at the start of a block. -/
def enter (g : Graph) (s : Progress V) (b : BlockId) : Progress V :=
  { s with
    regs := fun id => if id ∈ g.parameters b then (s.passed.lookup id).getD W.blank else s.regs id
    condition := none, arithmetic := none, passed := [] }

/-- Run a graph from the start of a block on. Each block takes one unit of `jumps`. -/
def runAt (g : Graph) : Nat → BlockId → Progress V → EStateM ε σ V
  | 0, _, _ => throw W.exhausted
  | jumps + 1, b, s => do
    match ← W.runCode (g.code b) s with
    | .returned value => return value
    | .fell s =>
      match next? (g.successors b) s.condition with
      | some target => runAt g jumps target (W.enter g s target)
      | none => throw W.stuck

/-- Run a graph from its entry on. -/
def run (g : Graph) (jumps : Nat) : EStateM ε σ V := W.runAt g jumps ⟨0⟩ { regs := fun _ => W.blank }

end World
end Meaning
end ScriptEngine
