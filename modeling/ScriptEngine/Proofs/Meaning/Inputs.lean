import Mathlib.Logic.Basic
import ScriptEngine.Proofs.Meaning.Preservation

/-!
What a call passes to a function, and what the function sees of it. Only the receiver and the arguments at the
places of parameters count.
-/

namespace ScriptEngine.Meaning

open Syntax

variable {V σ : Type}

namespace Site

variable (A : Answerer V σ) (receiver : V) (args args' : List V) (topLevel : Bool)

mutual

/-- An expression knows nothing of the arguments, of which parameters are copies. -/
theorem expression_args (known : Names) : ∀ x : Expr,
    (⟨A, ⟨receiver, args⟩, topLevel⟩ : Site V σ).expression known x =
      (⟨A, ⟨receiver, args'⟩, topLevel⟩ : Site V σ).expression known x
  | .number _ | .text _ | .bool _ | .null | .name _ | .function _ | .privateMember | .unsupported => by
    rw [expression, expression]
    rfl
  | .this => by
    rw [expression, expression]
  | .binary sign left right | .logical sign left right => by
    rw [expression, expression, expression_args known left, expression_args known right]
    rfl
  | .member object _ => by
    rw [expression, expression, expression_args known object]
    rfl
  | .index object key => by
    rw [expression, expression, expression_args known object, expression_args known key]
    rfl
  | .conditional test yes no => by
    rw [expression, expression, expression_args known test, expression_args known yes, expression_args known no]
    rfl
  | .paren inner => by
    rw [expression, expression, expression_args known inner]
  | .sequence first second => by
    rw [expression, expression, expression_args known first, expression_args known second]
  | .unary .minus operand | .unary .not operand | .unary .void operand => by
    rw [expression, expression, expression_args known operand]
    rfl
  | .unary (.other _) _ => by
    rw [expression, expression]
    rfl
  | .unary .delete operand => by
    cases operand with
    | member object name =>
      rw [expression, expression, expression_args known object]
      rfl
    | index object key =>
      rw [expression, expression, expression_args known object, expression_args known key]
      rfl
    | name text =>
      rw [expression, expression]
      rfl
    | _ =>
      exact congrArg (fun value : EvalM V σ V => do
        discard value
        (⟨A, ⟨receiver, args'⟩, topLevel⟩ : Site V σ).constant (.bool true)) (expression_args known _)
  | .assign sign target value => by
    rw [expression, expression, placeFor_args known target, expression_args known value]
    rfl
  | .call callee list => by
    cases callee with
    | member object name =>
      rw [expression, expression, expression_args known object, arguments_args known list]
      rfl
    | index object key =>
      rw [expression, expression, expression_args known object, expression_args known key, arguments_args known list]
      rfl
    | _ =>
      exact congrArg₂ (fun (callee : EvalM V σ V) (given : EvalM V σ (List V)) => do
        let callee ← callee
        let this ← (⟨A, ⟨receiver, args'⟩, topLevel⟩ : Site V σ).constant .undefined
        (⟨A, ⟨receiver, args'⟩, topLevel⟩ : Site V σ).ask (.call callee this (← given)))
          (expression_args known _) (arguments_args known list)
  | .new callee list => by
    rw [expression, expression, expression_args known callee, arguments_args known list]
    rfl
  | .object list => by
    simp only [expression, properties_args known _ list]
    rfl
  | .array list => by
    simp only [expression, elements_args known _ 0 list]
    rfl

theorem placeFor_args (known : Names) : ∀ x : Target,
    (⟨A, ⟨receiver, args⟩, topLevel⟩ : Site V σ).placeFor known x =
      (⟨A, ⟨receiver, args'⟩, topLevel⟩ : Site V σ).placeFor known x
  | .name _ | .other => by
    rw [placeFor, placeFor]
  | .member object _ => by
    rw [placeFor, placeFor, expression_args known object]
    rfl
  | .index object key => by
    rw [placeFor, placeFor, expression_args known object, expression_args known key]

theorem arguments_args (known : Names) : ∀ x : List Element,
    (⟨A, ⟨receiver, args⟩, topLevel⟩ : Site V σ).arguments known x =
      (⟨A, ⟨receiver, args'⟩, topLevel⟩ : Site V σ).arguments known x
  | [] => by
    rw [arguments, arguments]
  | .item value :: rest => by
    rw [arguments, arguments, expression_args known value, arguments_args known rest]
  | .hole :: rest | .spread :: rest => by
    rw [arguments, arguments, arguments_args known rest]

theorem properties_args (known : Names) (object : V) : ∀ x : List Property,
    (⟨A, ⟨receiver, args⟩, topLevel⟩ : Site V σ).properties known object x =
      (⟨A, ⟨receiver, args'⟩, topLevel⟩ : Site V σ).properties known object x
  | [] => by
    rw [properties, properties]
  | .entry key value :: rest => by
    rw [properties, properties, expression_args known value, properties_args known object rest]
    rfl
  | .spread :: rest => by
    rw [properties, properties, properties_args known object rest]

theorem elements_args (known : Names) (array : V) : ∀ (i : Nat) (x : List Element),
    (⟨A, ⟨receiver, args⟩, topLevel⟩ : Site V σ).elements known array i x =
      (⟨A, ⟨receiver, args'⟩, topLevel⟩ : Site V σ).elements known array i x
  | _, [] => by
    rw [elements, elements]
  | i, .item value :: rest => by
    rw [elements, elements, expression_args known value, elements_args known array (i + 1) rest]
    rfl
  | i, .hole :: rest | i, .spread :: rest => by
    rw [elements, elements, elements_args known array (i + 1) rest]

end

theorem hoist_args (x : List Stmt) :
    (⟨A, ⟨receiver, args⟩, topLevel⟩ : Site V σ).hoist x =
      (⟨A, ⟨receiver, args'⟩, topLevel⟩ : Site V σ).hoist x := by
  induction x with
  | nil => rfl
  | cons s rest ih =>
    cases s with
    | function f =>
      obtain ⟨name, ps, content⟩ := f
      rw [hoist, hoist, ih]
      rfl
    | _ =>
      rw [hoist, hoist, ih]
      all_goals simp

theorem declarators_args : ∀ (known : Names) (x : List Declarator),
    (⟨A, ⟨receiver, args⟩, topLevel⟩ : Site V σ).declarators known x =
      (⟨A, ⟨receiver, args'⟩, topLevel⟩ : Site V σ).declarators known x
  | _, [] => rfl
  | known, .mk .pattern _ :: rest => by
    rw [declarators, declarators, declarators_args known rest]
  | known, .mk (.name text) (some value) :: rest => by
    rw [declarators, declarators, expression_args A receiver args args' topLevel known value, declarators_args _ rest]
    rfl
  | known, .mk (.name text) none :: rest => by
    rw [declarators, declarators, declarators_args _ rest]
    rfl

mutual

theorem statement_args (known : Names) : ∀ x : Stmt,
    (⟨A, ⟨receiver, args⟩, topLevel⟩ : Site V σ).statement known x =
      (⟨A, ⟨receiver, args'⟩, topLevel⟩ : Site V σ).statement known x
  | .expression value => by
    rw [statement, statement, expression_args A receiver args args' topLevel known value]
  | .declare items => by
    rw [statement, statement, declarators_args A receiver args args' topLevel known items]
  | .ret (some value) => by
    rw [statement, statement, expression_args A receiver args args' topLevel known value]
  | .ret none | .debugger => by
    rw [statement, statement]
    rfl
  | .function _ | .empty | .loop | .unsupported => by
    rw [statement, statement]
  | .block list => by
    rw [statement, statement, hoist_args A receiver args args' topLevel list, statements_args _ list]
  | .branch test yes no => by
    rw [statement, statement, expression_args A receiver args args' topLevel known test, statement_args known yes,
      alternative_args known no]
    rfl

theorem alternative_args (known : Names) : ∀ x : Option Stmt,
    (⟨A, ⟨receiver, args⟩, topLevel⟩ : Site V σ).alternative known x =
      (⟨A, ⟨receiver, args'⟩, topLevel⟩ : Site V σ).alternative known x
  | some s => by
    rw [alternative, alternative, statement_args known s]
  | none => by
    rw [alternative, alternative]

theorem statements_args (known : Names) : ∀ x : List Stmt,
    (⟨A, ⟨receiver, args⟩, topLevel⟩ : Site V σ).statements known x =
      (⟨A, ⟨receiver, args'⟩, topLevel⟩ : Site V σ).statements known x
  | [] => by
    rw [statements, statements]
  | s :: rest => by
    simp only [statements, statement_args known s, fun known => statements_args known rest]

end

variable {args args'}

end Site

/-- Evaluation of the text that a graph was made of: the script, or one of its functions. -/
def evaluation (list : List Stmt) (k : Nat) (A : Answerer V σ) (inputs : Inputs V) (s : σ) : V × σ :=
  match k with
  | 0 => evalScript A inputs s list
  | k + 1 => evalFunction A inputs s (functionAt list (k + 1))

/-- Number of the parameters of a function. -/
def arity : Function → Nat
  | .mk _ ps _ => ps.items.length

/-- Number of the parameters of the text that a graph was made of. -/
def textArity (list : List Stmt) : Nat → Nat
  | 0 => 0
  | k + 1 => arity (functionAt list (k + 1))

end ScriptEngine.Meaning
