import ScriptEngine.Proofs.Machine.Stocking
import ScriptEngine.Proofs.Meaning.Raising
import ScriptEngine.Proofs.Meaning.Transcripts

/-!
Programs of scripts. The program of a script, or of a function in one, does in the machine what its text says:
it asks for what the text asks for, in this order, by calls of stubs and inline caches with the words that stand
for the operands.
-/

namespace ScriptEngine

open State Lowering

namespace Lowering

open Engine

/-! ### Areas of lowered code -/

/-- Instructions that neither take arguments nor prepare any. -/
theorem foldlM_step_of_still {code : List Instr} (h : ∀ i ∈ code, ∀ hold : Holding, hold.step i = some hold)
    (hold : Holding) : code.foldlM Holding.step hold = some hold := by
  induction code with
  | nil => rfl
  | cons i rest ih =>
    rw [List.foldlM_cons, h i (by simp)]
    exact ih fun j hj => h j (by simp [hj])

theorem step_of_simple {i : Instr} (h : Simple i.op i.inputs) (hold : Holding) : hold.step i = some hold := by
  generalize hop : i.op = op at h
  generalize i.inputs = ins at h
  cases h <;> simp [Holding.step, hop]

theorem step_of_isPush {i : Instr} (h : i.IsPush ∨ i.IsLiteral) (hold : Holding) : hold.step i = some hold := by
  rcases h with h | h <;> simp [Holding.step, h.1]

/-- Balanced code leaves no area open. -/
theorem Balanced.holding {code : List Instr} (h : Balanced code) (hold : Holding) :
    code.foldlM Holding.step hold = some hold := by
  induction h with
  | nil => rfl
  | simple hs _ _ ih =>
    rw [List.foldlM_cons, step_of_simple hs]
    exact ih
  | @area o i area rest hopen hins harea htakes hprim _ ih =>
    have hcall : i.IsCall ∧ i.taken = pushCount area := by
      generalize hop : i.op = op at htakes hprim
      generalize hinputs : i.inputs = ins at htakes
      cases htakes with
      | construct => cases hprim
      | _ => simp [Instr.IsCall, Instr.taken, Instr.rawAt, hop, hinputs, Builder.raw]
    have hopened : hold.step o = some { hold with areas := pushCount area :: hold.areas } := by
      simp [Holding.step, hopen, Instr.rawInput, hins, Builder.raw]
    rw [List.foldlM_cons, hopened]
    simp only [Option.bind_eq_bind, Option.bind_some, List.foldlM_append,
      foldlM_step_of_still fun j hj => step_of_isPush (harea j hj)]
    rw [List.foldlM_cons, ← hcall.2, Holding.step_call hcall.1]
    exact ih

theorem Lowered.balances {g : Graph} (h : Lowered g) : Balances g := by
  intro b
  by_cases hb : b.index < g.blocks.size
  · obtain ⟨heads, body, tail, hcode, hheads, hbody, hends⟩ := h.forms b hb
    have htail : ∀ i ∈ tail, ∀ hold : Holding, hold.step i = some hold := by
      intro i hi hold
      generalize g.successors b = next at hends
      cases hends with
      | ret hop => simp [Holding.step, List.mem_singleton.mp hi, hop]
      | branch hop => rcases hop with hop | hop <;> simp [Holding.step, List.mem_singleton.mp hi, hop]
      | jump hall => rcases hall i hi with h | h <;> simp [Holding.step, h.1]
    rw [hcode, List.foldlM_append, foldlM_step_of_still fun i hi hold => by simp [Holding.step, (hheads i hi).1]]
    simp only [Option.bind_eq_bind, Option.bind_some, List.foldlM_append, hbody.holding]
    exact foldlM_step_of_still htail _
  · rw [code_eq_nil hb]
    rfl

end Lowering

namespace Meaning

/-- The values that a request is about. -/
def Request.operands {V : Type} : Request V → List V
  | .storeGlobal _ v | .unary _ v => [v]
  | .loadProperty o k | .deleteProperty o k => [o, k]
  | .storeProperty o k v => [o, k, v]
  | .call f receiver args => f :: receiver :: args
  | .construct f args => f :: args
  | .binary _ l r => [l, r]
  | _ => []

end Meaning

namespace Engine

open Machine (callFunction enter)
open Meaning

variable {g : Graph} {p : Program} {e e' : Engine}

/-- The program of a graph does what the graph does in a world in which its operations are what lowering put in
their place. -/
theorem Emits.runs (hg : g.Sketch []) (h : Emits g p e) : ∃ nesting nested start listing words log,
    Answered (resolve (compileNested nesting) nested) start log e ∧ (∀ b, ∀ i ∈ (lower g).graph.code b, i ∈ listing) ∧
    (∀ b, AllNamed ((lower g).graph.code b) words log) ∧ Placed words listing log ∧
    ∀ call self, ∃ W, Beside W (machineWorld words call self) ∧
      (∀ b, ∀ i ∈ g.code b, Raised g (lower g).graph (machineWorld words call self) W i) ∧
      ∀ jumps, Machine.runFrom call p self jumps ⟨0⟩ ∅ = W.run g jumps := by
  obtain ⟨scope, nesting, nested, start, record, hscope, hresolve, hemit⟩ := h
  obtain ⟨g₆, hpassed, hframes, -⟩ := lower_ok hg
  have hlowered := hframes.lowered (hpassed.staged hg)
  rw [← hscope] at hlowered
  obtain ⟨order, words, log, hanswered, hreach, hnamed, hplaced, hruns⟩ :=
    emitProgram_runs hlowered.ssa.listed hlowered.balances hemit
  rw [hresolve] at hanswered
  rw [← hscope]
  have horder : ∀ {b i}, i ∈ scope.graph.code b → b ∈ order := fun hi =>
    hreach _ (hlowered.ssa.reached _ (Graph.lt_of_mem_code hi))
  refine ⟨nesting, nested, start, order.flatMap scope.graph.code, words, log, hanswered,
    fun b i hi => List.mem_flatMap.mpr ⟨b, horder hi, hi⟩, fun b i hi => hnamed b (horder hi) i hi, hplaced,
    fun call self => ?_⟩
  · obtain ⟨W, hb, hraised, -, hsame⟩ := exists_raise_lower hg (machineWorld words call self)
    refine ⟨W, hb, ?_, fun jumps => by rw [hruns, hsame, hscope]⟩
    rwa [hscope]

/-! ### Requests in the machine -/

/-- Steps of generated code that pass on nothing but words that are known, and what earlier steps have answered. -/
inductive Uses (call : Caller) : (Word → Prop) → RunM Word → Prop
  | call {known : Word → Prop} {target receiver : Word} {args : List Word} : known target → known receiver →
    (∀ w ∈ args, known w) → Uses call known
      (callFunction call target { callee := target, receiver, args := args.toArray, argc := .ofInt args.length })
  | global {known : Word → Prop} : Uses call known (do return (← get).global)
  | trap {known : Word → Prop} : Uses call known (do Machine.trap; return default)
  | bind {known : Word → Prop} {first : RunM Word} {rest : Word → RunM Word} : Uses call known first →
    (∀ w, Uses call (fun v => known v ∨ v = w) (rest w)) → Uses call known (first >>= rest)

/-- A call of a function. The callee is checked first. -/
def callChecked (call : Caller) (check undefined f receiver : Word) (args : List Word) : RunM Word := do
  let checked ← callFunction call check { callee := check, receiver := undefined, args := #[f], argc := .ofInt 1 }
  callFunction call checked { callee := checked, receiver, args := args.toArray, argc := .ofInt args.length }

/-- A call of the stub that makes instances. The number of arguments and the function come before the arguments. -/
def callNew (call : Caller) (new undefined count f : Word) (args : List Word) : RunM Word :=
  callFunction call new
    { callee := new, receiver := undefined, args := (count :: f :: args).toArray, argc := .ofInt (args.length + 2) }

/-- What a value of a script is in a run: a word, or a constant that code generation got a word for. -/
inductive Held where
  | word (w : Word)
  | constant (c : Const)

/-- The word is that of the value. -/
def Held.Denotes (log : List (Const × Word)) : Held → Word → Prop
  | .word v, w => v = w
  | .constant c, w => (c, w) ∈ log

/-- A word of a constant, or of a value that a request is about. -/
def Known (log : List (Const × Word)) (r : Meaning.Request Held) (w : Word) : Prop :=
  (∃ c, (c, w) ∈ log) ∨ ∃ h ∈ r.operands, h.Denotes log w

/-- What generated code does for the requests of its text. -/
def executing (call : Caller) (log : List (Const × Word)) : Performer Held Word RunError Engine where
  denotes := Held.Denotes log
  does
    | .call f receiver args, act => ∃ check undefined fw rw ws, (.stub "checkFunction", check) ∈ log ∧
      (.undefined, undefined) ∈ log ∧ f.Denotes log fw ∧ receiver.Denotes log rw ∧
      List.Forall₂ (Held.Denotes log) args ws ∧ act = callChecked call check undefined fw rw ws
    | .construct f args, act => ∃ new undefined count fw ws, (.stub "new", new) ∈ log ∧ (.undefined, undefined) ∈ log ∧
      (.smi args.length, count) ∈ log ∧ f.Denotes log fw ∧ List.Forall₂ (Held.Denotes log) args ws ∧
      act = callNew call new undefined count fw ws
    | r, act => Uses call (Known log r) act
  tests h act := ∃ coerce undefined yes w, (.stub "coerce/boolean", coerce) ∈ log ∧ (.undefined, undefined) ∈ log ∧
    (.bool true, yes) ∈ log ∧ h.Denotes log w ∧ act = (do
      let v ← callFunction call coerce { callee := coerce, receiver := undefined, args := #[w], argc := .ofInt 1 }
      return Cond.eq.holds v yes)

section

variable {words : InstrId → Nat → Word} {log : List (Const × Word)} {call : Caller} {self : Activation} {g' : Graph}
  {b : BlockId} {x : InstrId} {known : Word → Prop}

theorem eval_words (args : List Word) : (args.map Operand.word).map (Machine.eval ∅) = args := by
  rw [List.map_map, show Machine.eval ∅ ∘ Operand.word = id from rfl, List.map_id]

theorem callsStub_eq {target : Const} {argc : Nat} {args : List Word} :
    (machineWorld words call self).callsStub b x target argc args = callFunction call (words x 0)
      { callee := words x 0, receiver := words x 2, args := args.toArray, argc := .ofInt argc } := by
  change callFunction call (words x 0)
    ⟨words x 0, words x 2, ((args.map Operand.word).map (Machine.eval ∅)).toArray, .ofInt argc⟩ = _
  rw [eval_words]

variable (hnamed : ∀ b, AllNamed (g'.code b) words log)

include hnamed

variable (hlog : ∀ c w, (c, w) ∈ log → known w)

include hlog

end

section

variable {words : InstrId → Nat → Word} {log : List (Const × Word)} {call : Caller} {self : Activation} {g' : Graph}
  {W : World Word RunError Engine} {i : Instr} {functions : Nat → Syntax.Function} {vs : Nat → Word} {args : List Word}
  {r : Meaning.Request Held}

theorem callsChecked_eq {b : BlockId} {x c receiver : InstrId} {argc : Nat} (hargc : args.length = argc) {f this : Word} :
    (machineWorld words call self).callsChecked b x c receiver argc f this args =
      callChecked call (words c 0) (words c 2) f this args := by
  unfold World.callsChecked callChecked
  have hcall : ∀ checked, (machineWorld words call self).act (callInstr b x c receiver argc)
      ((machineWorld words call self).fill (callInstr b x c receiver argc) [checked, this]) args =
        callFunction call checked { callee := checked, receiver := this, args := args.toArray, argc := .ofInt argc } := by
    intro checked
    change callFunction call checked
      ⟨checked, this, ((args.map Operand.word).map (Machine.eval ∅)).toArray, .ofInt argc⟩ = _
    rw [eval_words]
  simp only [callsStub_eq, hcall, hargc]
  rfl

end

/-! ### Runs of programs -/

/-- What a call passes at a place, if it passes anything there. -/
def passed (self : Activation) (i : Nat) : Held :=
  if (Word.ofInt i).toNat < self.argc.toNat then .word (Machine.argumentAt self.args i) else .constant .undefined

/-- What a call passes to a function, at the first places. -/
def inputs (self : Activation) (n : Nat) : Inputs Held where
  receiver := .word self.receiver
  args := (List.range n).map (passed self)

section

variable {words : InstrId → Nat → Word} {log : List (Const × Word)} {call : Caller} {self : Activation} {g' : Graph}
  {W : World Word RunError Engine} {functions : Nat → Syntax.Function} {n : Nat}

end

end Engine
end ScriptEngine
