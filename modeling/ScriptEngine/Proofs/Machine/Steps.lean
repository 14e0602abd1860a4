import ScriptEngine.Proofs.Machine.Running

/-!
Execution of given code by the machine, one instruction after another. Each equation takes the first
instruction off a block; together they run the blocks of a stub from its entry to its end.
-/

namespace ScriptEngine

namespace Meaning.Progress

variable {V : Type} {s : Progress V} {id id' : InstrId} {v : V}

@[simp] theorem regs_setReg : (s.setReg id v).regs id' = if id' = id then v else s.regs id' := rfl

@[simp] theorem pushed_setReg : (s.setReg id v).pushed = s.pushed := rfl

@[simp] theorem forwarded_setReg : (s.setReg id v).forwarded = s.forwarded := rfl

@[simp] theorem condition_setReg : (s.setReg id v).condition = s.condition := rfl

@[simp] theorem arithmetic_setReg : (s.setReg id v).arithmetic = s.arithmetic := rfl

@[simp] theorem passed_setReg : (s.setReg id v).passed = s.passed := rfl

/-- The state at the start of a block without parameters. -/
def next (s : Progress V) : Progress V := { s with condition := none, arithmetic := none, passed := [] }

@[simp] theorem regs_next : s.next.regs = s.regs := rfl

@[simp] theorem pushed_next : s.next.pushed = s.pushed := rfl

/-- The state after a test. -/
def tested (s : Progress V) (holds : Bool) : Progress V := { s with condition := some holds }

@[simp] theorem regs_tested {holds : Bool} : (s.tested holds).regs = s.regs := rfl

@[simp] theorem pushed_tested {holds : Bool} : (s.tested holds).pushed = s.pushed := rfl

@[simp] theorem condition_tested {holds : Bool} : (s.tested holds).condition = some holds := rfl

/-- The state after an argument was pushed. -/
def push (s : Progress V) (v : V) : Progress V := { s with pushed := v :: s.pushed }

@[simp] theorem regs_push : (s.push v).regs = s.regs := rfl

@[simp] theorem pushed_push : (s.push v).pushed = v :: s.pushed := rfl

/-- The state after a call that took some arguments. -/
def drop (s : Progress V) (n : Nat) : Progress V := { s with pushed := s.pushed.drop n }

@[simp] theorem regs_drop {n : Nat} : (s.drop n).regs = s.regs := rfl

@[simp] theorem pushed_drop {n : Nat} : (s.drop n).pushed = s.pushed.drop n := rfl

/-- The state after arithmetic and the test whether it overflowed. -/
def checked (s : Progress V) (id : InstrId) (v : V) (overflow : Bool) : Progress V :=
  { s.setReg id v with condition := some overflow, arithmetic := none }

@[simp] theorem regs_checked {overflow : Bool} : (s.checked id v overflow).regs = (s.setReg id v).regs := rfl

@[simp] theorem pushed_checked {overflow : Bool} : (s.checked id v overflow).pushed = s.pushed := rfl

@[simp] theorem condition_checked {overflow : Bool} : (s.checked id v overflow).condition = some overflow := rfl

end Meaning.Progress

/-- The binary arithmetic of an operation. -/
def PrimOp.arithmetic (op : PrimOp) (x y : Operand) : Arithmetic :=
  match op with
  | .add => .add x y
  | .sub => .sub x y
  | _ => .mul x y

namespace Engine

open Builder (raw)
open Machine (callFunction load argumentAt addressAt)
open Meaning (Progress)

variable {words : InstrId → Nat → Word} {call : Caller} {self : Activation} {s : Progress Word}
  {id a c : InstrId} {b : BlockId} {rest : List Instr}

/-! ### Instructions -/

theorem runCode_stubArg {k : Nat} (hk : k < 2 ^ 28) :
    (machineWorld words call self).runCode (⟨id, .prim .stubArg, [raw k], b⟩ :: rest) s =
      (machineWorld words call self).runCode rest (s.setReg id (argumentAt self.args k)) := by
  have hoffset : Emission.offset32 ((k : Int) * 8) / 8 = k := by
    rw [Emission.offset32, Int.bmod_def]
    split <;> omega
  rw [← hoffset]
  rfl

theorem runCode_isSmi : (machineWorld words call self).runCode (⟨id, .prim .isSmi, [.value a], b⟩ :: rest) s =
    (machineWorld words call self).runCode rest (s.tested (s.regs a).isSmi) := rfl

theorem runCode_literal {k : Const} :
    (machineWorld words call self).runCode (⟨id, .prim .literal, [.const k], b⟩ :: rest) s =
      (machineWorld words call self).runCode rest (s.setReg id (words id 0)) := rfl

theorem runCode_push : (machineWorld words call self).runCode (⟨id, .prim .push, [.value a], b⟩ :: rest) s =
    (machineWorld words call self).runCode rest (s.push (s.regs a)) := rfl

theorem runCode_ret : (machineWorld words call self).runCode (⟨id, .prim .ret, [.value a], b⟩ :: rest) s =
    pure (.returned (s.regs a)) := rfl

theorem runCode_compareSmi {cond : Cond} : (machineWorld words call self).runCode
    (⟨id, .prim .compareSmi, [.value a, .value c, .const (.cond cond)], b⟩ :: rest) s =
      (machineWorld words call self).runCode rest (s.tested (cond.holds (s.regs a) (s.regs c))) := rfl

/-- Arithmetic and the test for overflow that follows it. -/
theorem runCode_arithmetic {op : PrimOp} (hop : op ∈ [PrimOp.add, .sub, .mul]) {id' : InstrId} :
    (machineWorld words call self).runCode
      (⟨id, .prim op, [.value a, .value c], b⟩ :: ⟨id', .prim .overflowed, [], b⟩ :: rest) s =
        (machineWorld words call self).runCode rest
          (s.checked id (Machine.compute ∅ (op.arithmetic (.word (s.regs a)) (.word (s.regs c)))).1
            (Machine.compute ∅ (op.arithmetic (.word (s.regs a)) (.word (s.regs c)))).2) := by
  simp only [List.mem_cons, List.not_mem_nil, or_false] at hop
  rcases hop with rfl | rfl | rfl <;> rfl

theorem runCode_neg {id' : InstrId} : (machineWorld words call self).runCode
    (⟨id, .prim .neg, [.value a], b⟩ :: ⟨id', .prim .overflowed, [], b⟩ :: rest) s =
      (machineWorld words call self).runCode rest (s.checked id (s.regs a).neg (s.regs a).negOverflows) := rfl

theorem runCode_nil : (machineWorld words call self).runCode [] s = pure (.fell s) := rfl

/-- A call of a stub: the arguments that were pushed last are passed on. -/
theorem runCode_callStub {name : String} {n : Nat} : (machineWorld words call self).runCode
    (⟨id, .prim .callStub, [.const (.stub name), raw n], b⟩ :: rest) s = (do
      let value ← callFunction call (words id 0)
        { callee := words id 0, receiver := words id 2, args := (s.pushed.take n).toArray, argc := .ofInt n }
      (machineWorld words call self).runCode rest ((s.drop n).setReg id value)) := by
  have hargs : ∀ args : List Word, (args.map Operand.word).map (Machine.eval ∅) = args := fun args => by
    simp [Function.comp_def]
  have hperform : (machineWorld words call self).perform s
      ⟨id, .prim .callStub, [.const (.stub name), raw n], b⟩ = (do
        let value ← callFunction call (words id 0)
          { callee := words id 0, receiver := words id 2,
            args := (((s.pushed.take n).map Operand.word).map (Machine.eval ∅)).toArray, argc := .ofInt n }
        return (s.drop n).setReg id value) := rfl
  rw [Meaning.World.runCode_cons rest (by simp) (by simp) (by simp), hperform, hargs, bind_assoc]
  simp only [pure_bind]

/-! ### Blocks -/

variable {g : Graph} {jumps : Nat} {yes no : BlockId}

/-- A block that ends in a return. -/
theorem runAt_returned {x : RunM Word}
    (h : (machineWorld words call self).runCode (g.code b) s = (do return .returned (← x))) :
    (machineWorld words call self).runAt g (jumps + 1) b s = x := by
  rw [Meaning.World.runAt, h, bind_assoc]
  simp only [pure_bind, bind_pure]

/-- A block that ends in a branch to blocks without parameters. -/
theorem runAt_branched {s' : Progress Word} {holds : Bool}
    (h : (machineWorld words call self).runCode (g.code b) s = pure (.fell s')) (hnext : g.successors b = [yes, no])
    (hholds : s'.condition = some holds) (hyes : g.parameters yes = []) (hno : g.parameters no = []) :
    (machineWorld words call self).runAt g (jumps + 1) b s =
      (machineWorld words call self).runAt g jumps (if holds then yes else no) s'.next := by
  have henter : ∀ t, g.parameters t = [] → (machineWorld words call self).enter g s' t = s'.next := fun t ht => by
    unfold Meaning.World.enter
    simp only [ht, List.not_mem_nil, if_false]
    rfl
  rw [Meaning.World.runAt, h, pure_bind, hnext]
  simp only [hholds, Meaning.next?]
  cases holds
  · exact congrArg _ (henter no hno)
  · exact congrArg _ (henter yes hyes)

end Engine
end ScriptEngine
