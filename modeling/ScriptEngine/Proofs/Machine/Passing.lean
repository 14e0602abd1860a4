import ScriptEngine.Proofs.Machine.Instances
import ScriptEngine.Proofs.Machine.Scripts
import ScriptEngine.Proofs.Meaning.Inputs

/-!
Passing of arguments. A call gives the text of the function that it calls a receiver, and an argument for each of
its parameters, or `undefined` where it has none; further arguments are never seen. So it is for calls of generated
code, for the making of instances, and for calls of the host.
-/

namespace ScriptEngine.Engine

open Machine (argumentAt callFunction enter maxJumps maxDepth)
open Meaning Syntax State

/-! ### Runs of compiled texts -/

/-- What a call gives to a text with some parameters: the receiver, and for each parameter the argument at its
place, or else `undefined`. -/
def given (places : Nat) (receiver : Word) (args : List Word) : Inputs Held where
  receiver := .word receiver
  args := (List.range places).map fun i => (args[i]?.map Held.word).getD (.constant .undefined)

/-- A call as the machine makes it. -/
def callOf (callee receiver : Word) (args : List Word) : Activation :=
  { callee, receiver, args := args.toArray, argc := .ofInt args.length }

/-- A run ends as an evaluation of a text with these inputs says, whose requests generated code has carried out from
a state on. -/
def Evaluates (list : List Stmt) (k : Nat) (log : List (Const × Word)) (inputs : Inputs Held) (depth : Nat) (e : Engine)
    (r : EStateM.Result RunError Engine Word) : Prop :=
  ∃ replies v t, evaluation list k (dictating Held.constant) inputs ⟨replies, []⟩ = (v, t) ∧
    (executing (enter depth) log).Yields v t e r

section

variable {list : List Stmt} {graphs : List Graph} {k : Nat} {g : Graph} {p : Program} {e₀ e : Engine} {T : Contents}
  {code f receiver : Word} {args : List Word}

/-- The end of a call of the host. An error that a callback recorded is the outcome. -/
def outcome (result : Word) : RunM Word := do
  match (← get).pending with
  | some err =>
    modify fun e => { e with pending := none }
    throw err
  | none => return result

/-- How a function that was compiled from a text takes what it is given. -/
structure Passes (list : List Stmt) (k : Nat) (log : List (Const × Word)) (T : Contents) (e : Engine) (f : Word) : Prop where
  /-- In a call, and `this` is the receiver. -/
  called : ∀ depth receiver args, args.length < 2 ^ 64 →
    Evaluates list k log (given (textArity list k) receiver args) depth e.entered
      (callFunction (enter (depth + 1)) f (callOf f receiver args) e)
  /-- In a call of a script, which checks the function first. -/
  checked : ∀ check, e.stubs.compiled? "checkFunction" = some check →
    ∀ depth undefined receiver args, args.length < 2 ^ 64 →
      Evaluates list k log (given (textArity list k) receiver args) (depth + 1) e.entered.entered
        (callChecked (enter (depth + 2)) check.function undefined f receiver args e)
  /-- In a `new`, and `this` is a new object with the shape for instances, which is the result. -/
  made : ∀ new shape, e.stubs.compiled? "new" = some new → e.heap.instanceShape f = .ok shape → e.heap.Maps 80 2 →
    ∀ depth undefined count args, Word.ofSmi? args.length = some count → ∃ o t, Instance T e shape o t ∧
      Evaluates list k log (given (textArity list k) o args) (depth + 3) t.entered
        (callFunction (enter (depth + 4)) f (callOf f o args) t) ∧
      callNew (enter (depth + 5)) new.function undefined count f args e = (do
        let _ ← callFunction (enter (depth + 4)) f (callOf f o args)
        return o) t
  /-- In a call of the host, and `this` is the receiver. -/
  invoked : ∀ receiver args, args.length < 2 ^ 64 → ∃ depth, maxDepth = depth + 1 ∧
    Evaluates list k log (given (textArity list k) receiver args) depth { e with pending := none }.entered
      (callFunction (enter maxDepth) f (callOf f receiver args) { e with pending := none }) ∧
    invoke f receiver args e =
      (callFunction (enter maxDepth) f (callOf f receiver args) >>= outcome) { e with pending := none }

end

/-! ### Functions of graphs -/

/-- The routine is a program of the graph. -/
def Embodies (g : Graph) (r : Routine) (e : Engine) : Prop :=
  ∃ p e₀, r = .program p ∧ p.trapOnEntry = e.config.trapOnEntry ∧ Emits g p e₀ ∧ GoesOn e₀ e

theorem Embodies.mono {r : Routine} {e' : Engine} (h : Embodies g r e) (on : GoesOn e e') : Embodies g r e' := by
  obtain ⟨p, e₀, hr, htrap, hemits, hon⟩ := h
  exact ⟨p, e₀, hr, htrap.trans (congrArg Config.trapOnEntry on.config.symm), hemits, hon.trans on⟩

end ScriptEngine.Engine
