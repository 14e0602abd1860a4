import ScriptEngine.Engine.Emission
import ScriptEngine.Proofs.Graph.Form
import ScriptEngine.Proofs.State

/-!
Outlines of code generation. Whether a graph passes the checks of code generation does not depend
on the words of its constants: it is decided on an outline, which keeps the results that exist, the
arguments that open areas still miss, and whether there is a condition. A graph whose outline can be
drawn fails only where one of its constants has no word.
-/

namespace ScriptEngine

/-- What code generation expects at the place of an input. -/
inductive Role where
  | operand
  | parameter
  | raw
  | cond
deriving DecidableEq

/-- What code generation expects of the inputs of an operation. -/
def PrimOp.roles : PrimOp → List Role
  | .literal | .code | .ret | .cacheRet | .setHeapTop | .alignSize | .push | .tailCall | .isTrue
  | .isUndefined | .isSmi | .neg | .untag | .tag | .pointer => [.operand]
  | .global | .receiver | .callee | .trap | .phi | .heapTop | .heapLimit | .overflowed => []
  | .toPhi => [.parameter, .operand]
  | .read | .forward | .callStub | .testBits => [.operand, .raw]
  | .write => [.operand, .raw, .operand]
  | .readIndexed => [.operand, .operand, .raw, .raw]
  | .writeIndexed => [.operand, .operand, .raw, .raw, .operand]
  | .fill => [.operand, .raw, .operand, .operand]
  | .arg | .stubArg | .cacheArg | .openArea => [.raw]
  | .call => [.operand, .operand, .raw]
  | .forwardCall | .add | .sub | .mul | .addBare => [.operand, .operand]
  | .compareSmi | .comparePointer => [.operand, .operand, .cond]

/-- Whether the operation fills the register of its instruction; parameters are filled by edges. -/
def PrimOp.fills (op : PrimOp) : Bool := op.info.output && op != .phi

/-- What is known of code generation at a point of a graph. -/
structure Outline where
  defined : List InstrId := []
  /-- Arguments that the open areas miss, the innermost first. -/
  areas : List Nat := []
  forwarded : Bool := false
  condition : Bool := false
  arithmetic : Bool := false
  /-- Parameters that the block has passed a value to. -/
  passed : List InstrId := []

namespace Outline

section

variable (allowed : Const → Bool)

def admits (defined : List InstrId) : Role → Input → Bool
  | .operand, .value id => id ∈ defined
  | .operand, .const c => allowed c
  | .parameter, .value _ => true
  | .raw, .const (.raw _) => true
  | .cond, .const (.cond _) => true
  | _, _ => false

def fits (defined : List InstrId) : List Role → List Input → Bool
  | [], _ => true
  | role :: roles, input :: inputs => admits allowed defined role input && fits defined roles inputs
  | _ :: _, [] => false

/-- What an operation changes besides its result. -/
def effect (o : Outline) (i : Instr) : PrimOp → Option Outline
  | .toPhi => i.passTarget?.map fun phi => { o with passed := phi :: o.passed }
  | .openArea =>
    match i.rawInput 0 with
    | .ok n => if 0 ≤ n then some { o with areas := n.toNat :: o.areas } else none
    | .error _ => none
  | .push =>
    match o.areas with
    | (missing + 1) :: outer => some { o with areas := missing :: outer }
    | _ => none
  | .call | .callStub =>
    match o.areas with
    | 0 :: outer => some { o with areas := outer }
    | _ => none
  | .forward => some { o with forwarded := true }
  | .forwardCall => if o.forwarded then some { o with forwarded := false } else none
  | .isTrue | .isUndefined | .isSmi | .compareSmi | .comparePointer | .testBits =>
    some { o with condition := true }
  | .overflowed =>
    if o.arithmetic then some { o with arithmetic := false, condition := true } else none
  | .neg | .add | .sub | .mul => some { o with arithmetic := true }
  | _ => some o

/-- The outline after an instruction, if it passes the checks. -/
def step (o : Outline) (i : Instr) (op : PrimOp) : Option Outline :=
  if fits allowed o.defined op.roles i.inputs then
    (o.effect i op).map fun o =>
      if op.fills then { o with defined := i.id :: o.defined } else o
  else none

/-- The outline after the instructions of a block, and whether one of them ends it. -/
def instructions (g : Graph) : List InstrId → Outline → Option (Outline × Bool)
  | [], o => some (o, false)
  | id :: rest, o =>
    match g.instrs[id.index]? with
    | some i =>
      match i.op with
      | .prim op =>
        match o.step allowed i op with
        | some o => if op.isTerminator then (if rest = [] then some (o, true) else none)
          else instructions g rest o
        | none => none
      | .script _ => none
    | none => none

/-- Whether every parameter of a block has got a value. -/
def edge (g : Graph) (o : Outline) (target : BlockId) : Bool :=
  match g.phis target with
  | .ok phis => phis.all (· ∈ o.passed)
  | .error _ => false

/-- Whether a block that no instruction ends can be left. -/
def fallThrough (g : Graph) (o : Outline) : List BlockId → Bool
  | [target] => o.edge g target
  | [yes, no] => o.condition && o.edge g yes && o.edge g no
  | _ => false

/-- The outline at the start of a block with the given parameters. -/
def enter (o : Outline) (b : BlockId) (params : List InstrId) : Outline :=
  { o with
    condition := false, arithmetic := false, passed := []
    defined := if b.index = 0 then o.defined else params ++ o.defined }

/-- The outline after a block. -/
def block (g : Graph) (o : Outline) (b : BlockId) : Option Outline :=
  match g.phis b, g.block b with
  | .ok params, .ok content =>
    match instructions allowed g content.instrs (o.enter b params) with
    | some (o, ended) => if ended || o.fallThrough g content.successors then some o else none
    | none => none
  | _, _ => none

/-- The outline after some blocks. -/
def blocks (g : Graph) : List BlockId → Outline → Option Outline
  | [], o => some o
  | b :: rest, o => (o.block allowed g b).bind (blocks g rest)

end

/-- Whether code can be generated for a graph whose constants are among the allowed ones. -/
def accepts (allowed : Const → Bool) (g : Graph) : Bool :=
  match g.reversePostorder with
  | .ok order => (blocks allowed g order {}).isSome
  | .error _ => false

section

variable {allowed : Const → Bool} {defined : List InstrId} {o o' : Outline} {i : Instr}

theorem admits_of_fits {roles : List Role} {inputs : List Input}
    (h : fits allowed defined roles inputs = true) {k : Nat} {role : Role}
    (hk : roles[k]? = some role) :
    ∃ input, inputs[k]? = some input ∧ admits allowed defined role input = true := by
  induction roles generalizing inputs k with
  | nil => cases hk
  | cons first rest ih =>
    cases inputs with
    | nil => cases h
    | cons input inputs =>
      simp only [fits, Bool.and_eq_true] at h
      cases k with
      | zero =>
        cases hk
        exact ⟨input, rfl, h.1⟩
      | succ k => exact ih h.2 hk

theorem value_of_admits {input : Input} (h : admits allowed defined .parameter input = true) :
    ∃ id, input = .value id := by
  cases input with
  | value id => exact ⟨id, rfl⟩
  | const c => cases h

theorem raw_of_admits {input : Input} (h : admits allowed defined .raw input = true) :
    ∃ n, input = .const (.raw n) := by
  cases input with
  | value id => cases h
  | const c =>
    cases c <;> first | exact ⟨_, rfl⟩ | cases h

theorem cond_of_admits {input : Input} (h : admits allowed defined .cond input = true) :
    ∃ c, input = .const (.cond c) := by
  cases input with
  | value id => cases h
  | const c =>
    cases c <;> first | exact ⟨_, rfl⟩ | cases h

theorem areas_of_push (h : o.effect i .push = some o') : ∃ missing outer,
    o.areas = (missing + 1) :: outer ∧ o' = { o with areas := missing :: outer } := by
  simp only [effect] at h
  split at h
  · rename_i missing outer hareas
    cases h
    exact ⟨missing, outer, hareas, rfl⟩
  · cases h

theorem areas_of_call {op : PrimOp} (hop : op = .call ∨ op = .callStub)
    (h : o.effect i op = some o') : ∃ outer,
      o.areas = 0 :: outer ∧ o' = { o with areas := outer } := by
  rcases hop with rfl | rfl
  all_goals
    simp only [effect] at h
    split at h
    · rename_i outer hareas
      cases h
      exact ⟨outer, hareas, rfl⟩
    · cases h

theorem step_eq_some {op : PrimOp} (h : o.step allowed i op = some o') : ∃ o₁,
    fits allowed o.defined op.roles i.inputs = true ∧ o.effect i op = some o₁ ∧
      o' = if op.fills then { o₁ with defined := i.id :: o₁.defined } else o₁ := by
  simp only [step, Option.ite_none_right_eq_some, Option.map_eq_some_iff] at h
  obtain ⟨hfits, o₁, heffect, rfl⟩ := h
  exact ⟨o₁, hfits, heffect, rfl⟩

theorem instructions_cons {g : Graph} {id : InstrId} {rest : List InstrId} {ended : Bool}
    (h : instructions allowed g (id :: rest) o = some (o', ended)) : ∃ i op o₁,
      g.instrs[id.index]? = some i ∧ i.op = .prim op ∧ o.step allowed i op = some o₁ ∧
      (op.isTerminator = true ∧ rest = [] ∧ o₁ = o' ∧ ended = true ∨
        op.isTerminator = false ∧ instructions allowed g rest o₁ = some (o', ended)) := by
  simp only [instructions] at h
  split at h
  · rename_i i hget
    split at h
    · rename_i op hop
      split at h
      · rename_i o₁ hstep
        refine ⟨i, op, o₁, hget, hop, hstep, ?_⟩
        split at h
        · rename_i hends
          rw [Option.ite_none_right_eq_some, Option.some_inj, Prod.mk.injEq] at h
          exact .inl ⟨hends, h.1, h.2.1, h.2.2.symm⟩
        · rename_i hends
          exact .inr ⟨by simpa using hends, h⟩
      · cases h
    · cases h
  · cases h

theorem block_eq_some {g : Graph} {b : BlockId} (h : o.block allowed g b = some o') :
    ∃ params content ended, g.phis b = .ok params ∧ g.block b = .ok content ∧
      instructions allowed g content.instrs (o.enter b params) = some (o', ended) ∧
      (ended = true ∨ o'.fallThrough g content.successors = true) := by
  unfold block at h
  split at h
  · rename_i params content hphis hblock
    split at h
    · rename_i o₁ ended hinstrs
      rw [Option.ite_none_right_eq_some, Option.some_inj, Bool.or_eq_true] at h
      obtain ⟨hexit, rfl⟩ := h
      exact ⟨params, content, ended, hphis, hblock, hinstrs, hexit⟩
    · cases h
  · cases h

theorem phis_of_blocks {g : Graph} {order : List BlockId} (h : blocks allowed g order o = some o')
    {b : BlockId} (hb : b ∈ order) : ∃ params, g.phis b = .ok params := by
  induction order generalizing o with
  | nil => cases hb
  | cons first rest ih =>
    obtain ⟨o₁, hfirst, hrest⟩ := Option.bind_eq_some_iff.mp h
    rcases List.mem_cons.mp hb with rfl | hb
    · obtain ⟨params, _, _, hphis, -⟩ := block_eq_some hfirst
      exact ⟨params, hphis⟩
    · exact ih hrest hb

end

end Outline

namespace Engine

open State

/-! ### Steps that fail only for a reason -/

/-- Whether steps keep what holds of an engine, give a result of some kind, and fail only with some
errors. -/
def Keeps {α : Type} (I : Engine → Prop) (F : CompileError → Prop) (act : CompileM α)
    (Q : α → Prop) : Prop :=
  ∀ e, I e → (∀ a e', act e = .ok a e' → I e' ∧ Q a) ∧ ∀ err e', act e = .error err e' → F err

section

variable {α β : Type} {I : Engine → Prop} {F : CompileError → Prop} {Q : α → Prop} {R : β → Prop}

theorem Keeps.bind {act : CompileM α} {next : α → CompileM β} (h : Keeps I F act Q)
    (hnext : ∀ a, Q a → Keeps I F (next a) R) : Keeps I F (act >>= next) R := by
  intro e he
  obtain ⟨hok, herror⟩ := h e he
  cases hact : act e with
  | ok a t =>
    obtain ⟨ht, ha⟩ := hok a t hact
    rw [bind_of_ok hact]
    exact hnext a ha t ht
  | error err t =>
    rw [bind_of_error hact]
    exact ⟨by simp, by simpa using herror err t hact⟩

theorem Keeps.pure {a : α} (h : Q a) : Keeps I F (pure a) Q := by
  intro e he
  refine ⟨fun b e' hok => ?_, fun err e' herror => by cases herror⟩
  obtain ⟨rfl, rfl⟩ := pure_eq_ok.mp hok
  exact ⟨he, h⟩

theorem Keeps.throw {err : CompileError} (h : F err) : Keeps I F (throw err : CompileM α) Q := by
  intro e he
  refine ⟨fun b e' hok => (throw_eq_ok.mp hok).elim, fun err' e' herror => ?_⟩
  cases herror
  exact h

theorem Keeps.mono {Q' : α → Prop} {act : CompileM α} (h : Keeps I F act Q)
    (hQ : ∀ a, Q a → Q' a) : Keeps I F act Q' := by
  intro e he
  exact ⟨fun a e' hok => ((h e he).1 a e' hok).imp_right (hQ a), (h e he).2⟩

end

namespace Emission

/-- An emission of which at least an outline is known. -/
structure Meets (s : Emission) (o : Outline) : Prop where
  defined : ∀ id ∈ o.defined, s.defined.contains id = true
  areas : List.Forall₂ (fun (area : ArgumentArea) missing => area.missing = missing ∧
    (0 < missing → area.hasRoom = true)) s.areas o.areas
  forwarded : o.forwarded = true → s.forwarded.isSome = true
  condition : o.condition = true → s.condition.isSome = true
  arithmetic : o.arithmetic = true → s.lastArithmetic.isSome = true
  passed : ∀ id ∈ o.passed, (s.phiArgs.lookup id).isSome = true

section

variable (I : Engine → Prop) (F : CompileError → Prop)

/-- Steps of code generation that lead from an outline to others. -/
def Advances {α : Type} (o : Outline) (act : EmitM α) (Q : α → Outline → Prop) : Prop :=
  ∀ s : Emission, s.Meets o → Keeps I F (act s) fun r => ∃ o', r.2.Meets o' ∧ Q r.1 o'

end

section

variable {α β : Type} {I : Engine → Prop} {F : CompileError → Prop} {o o' : Outline}
  {Q : α → Outline → Prop} {R : β → Outline → Prop}

theorem Advances.bind {act : EmitM α} {next : α → EmitM β} (h : Advances I F o act Q)
    (hnext : ∀ a o', Q a o' → Advances I F o' (next a) R) : Advances I F o (act >>= next) R := by
  intro s hs
  exact (h s hs).bind fun r ⟨o', hr, hq⟩ => hnext r.1 o' hq r.2 hr

theorem Advances.pure {a : α} (h : Q a o) : Advances I F o (pure a) Q := fun _ hs =>
  Keeps.pure ⟨o, hs, h⟩

theorem Advances.mono {act : EmitM α} {Q' : α → Outline → Prop} (h : Advances I F o act Q)
    (hQ : ∀ a o', Q a o' → Q' a o') : Advances I F o act Q' := fun s hs =>
  (h s hs).mono fun r ⟨o', hr, hq⟩ => ⟨o', hr, hQ r.1 o' hq⟩

theorem Advances.modify {f : Emission → Emission} {Q : PUnit → Outline → Prop}
    (hf : ∀ s : Emission, s.Meets o → (f s).Meets o') (h : Q ⟨⟩ o') :
    Advances I F o (modify f) Q := fun s hs => Keeps.pure ⟨o', hf s hs, h⟩

theorem Advances.get_bind {next : Emission → EmitM β}
    (h : ∀ s : Emission, s.Meets o → Advances I F o (next s) R) :
    Advances I F o (get >>= next) R := fun s hs => h s hs s hs

theorem Advances.ask_bind {question : Except GraphError α} {a : α} {next : α → EmitM β}
    (hq : question = .ok a) (h : Advances I F o (next a) R) :
    Advances I F o (ask question >>= next) R := by
  rw [hq]
  exact h

/-- Steps that leave the outline as it is. -/
theorem Advances.then {act : EmitM α} {next : α → EmitM β}
    (h : Advances I F o act fun _ o' => o' = o) (hnext : ∀ a, Advances I F o (next a) R) :
    Advances I F o (act >>= next) R := by
  refine h.bind ?_
  rintro a _ rfl
  exact hnext a

/-- A change that is made under a condition. -/
theorem Advances.when (o' : Outline) {c : Prop} [Decidable c] {f : Emission → Emission}
    {next : PUnit → EmitM β} (hf : c → ∀ s : Emission, s.Meets o → (f s).Meets o')
    (hsame : ¬ c → o = o') (hnext : ∀ u, Advances I F o' (next u) R) :
    Advances I F o (if c then (MonadState.modifyGet fun s => ((), f s)) >>= next else next ⟨⟩) R := by
  split
  · rename_i hc
    refine Advances.bind (Q := fun _ o'' => o'' = o') (Advances.modify (hf hc) rfl) ?_
    rintro u _ rfl
    exact hnext u
  · rename_i hc
    rw [hsame hc]
    exact hnext _

end

/-! ### Instructions -/

/-- Words for all constants that are allowed. -/
structure Resolves (I : Engine → Prop) (F : CompileError → Prop) (allowed : Const → Bool)
    (resolve : Const → CompileM Word) : Prop where
  undefined : allowed .undefined = true
  bool : ∀ b, allowed (.bool b) = true
  resolves : ∀ c, allowed c = true → Keeps I F (resolve c) fun _ => True

section

variable {I : Engine → Prop} {F : CompileError → Prop} {allowed : Const → Bool}
  {scope : EmissionScope} {o o' : Outline} {i : Instr}

theorem Meets.record {s : Emission} (h : s.Meets o) (record : CodeRecord) :
    Meets { s with record } o := ⟨h.1, h.2, h.3, h.4, h.5, h.6⟩

theorem advances_constant (hr : Resolves I F allowed scope.resolve) {c : Const}
    (hc : allowed c = true) : Advances I F o (constant scope c) fun _ o' => o' = o := by
  refine Advances.then (fun s hs => ?_) fun w => ?_
  · exact (hr.resolves c hc).bind fun w _ => Keeps.pure ⟨o, hs, rfl⟩
  · have hkeep : ∀ f : Emission → CodeRecord,
        Advances I F o (do modify fun s => { s with record := f s }; return w) fun _ o' => o' = o :=
      fun f => Advances.bind (Advances.modify (Q := fun _ o' => o' = o) (fun s hs => hs.record _) rfl)
        fun _ _ h => Advances.pure h
    split
    · exact Advances.pure rfl
    · exact hkeep _
    · split
      · exact hkeep _
      · exact Advances.pure rfl

theorem advances_operand (hr : Resolves I F allowed scope.resolve) {index : Nat} {input : Input}
    (hinput : i.inputs[index]? = some input)
    (hfits : Outline.admits allowed o.defined .operand input = true) :
    Advances I F o (operand scope i index) fun _ o' => o' = o := by
  refine Advances.ask_bind (a := input) (by rw [Instr.input, hinput]) ?_
  cases input with
  | value id =>
    refine Advances.get_bind fun s hs => ?_
    have hdefined := hs.defined id (by simpa [Outline.admits] using hfits)
    rw [if_pos hdefined]
    exact Advances.pure rfl
  | const c => exact (advances_constant hr hfits).then fun w => Advances.pure rfl

theorem advances_closeArea {operation : String} {argc : Int} {outer : List Nat}
    (h : o.areas = 0 :: outer) :
    Advances I F o (closeArea operation argc) fun _ o' => o' = { o with areas := outer } := by
  refine Advances.get_bind fun s hs => ?_
  have hareas := hs.areas
  rw [h] at hareas
  cases hcases : s.areas with
  | nil =>
    rw [hcases] at hareas
    cases hareas
  | cons area rest =>
    rw [hcases] at hareas
    cases hareas with
    | cons hfirst hrest =>
      refine Advances.bind (Q := fun _ o' => o' = { o with areas := outer }) ?_ ?_
      · refine fun s' hs' => Keeps.pure ⟨_, ?_, rfl⟩
        exact ⟨hs'.1, hrest, hs'.3, hs'.4, hs'.5, hs'.6⟩
      · rintro _ _ rfl
        simp only [hfirst.1]
        exact Advances.pure rfl

theorem advances_openArea {argc : Int} (h : 0 ≤ argc) :
    Advances I F o (openArea argc) fun _ o' => o' = { o with areas := argc.toNat :: o.areas } := by
  have hcount : (if argc < 0 then (Word.ofInt argc).toNat else argc.toNat) = argc.toNat :=
    if_neg (by omega)
  refine Advances.modify (fun s hs => ?_) rfl
  refine ⟨hs.1, .cons ⟨hcount, fun hpos => ?_⟩ hs.areas, hs.3, hs.4, hs.5, hs.6⟩
  simp only [hcount, decide_eq_true_eq]
  exact ⟨hpos, by omega⟩

theorem advances_push {value : Operand} {missing : Nat} {outer : List Nat}
    (h : o.areas = (missing + 1) :: outer) :
    Advances I F o (push value) fun _ o' => o' = { o with areas := missing :: outer } := by
  refine Advances.get_bind fun s hs => ?_
  have hareas := hs.areas
  rw [h] at hareas
  cases hcases : s.areas with
  | nil =>
    rw [hcases] at hareas
    cases hareas
  | cons area rest =>
    rw [hcases] at hareas
    cases hareas with
    | cons hfirst hrest =>
      obtain ⟨hmissing, hroom⟩ := hfirst
      simp only [hroom (by omega), hmissing, true_and, Nat.zero_lt_succ, if_true]
      refine Advances.modify (fun s' hs' => ?_) rfl
      exact ⟨hs'.1, .cons ⟨by simp, fun _ => rfl⟩ hrest, hs'.3, hs'.4, hs'.5, hs'.6⟩

theorem advances_compareInput {index : Nat} {cond : Cond}
    (hinput : i.inputs[index]? = some (.const (.cond cond))) :
    Advances I F o (compareInput i index) fun _ o' => o' = o := by
  refine Advances.ask_bind (a := .cond cond) (by rw [Instr.constInput, hinput]) ?_
  exact Advances.pure rfl

theorem advances_setCondition {condition : Condition} :
    Advances I F o (setCondition condition) fun r o' => r = .nothing ∧
      o' = { o with condition := true } := by
  refine Advances.bind (Advances.modify (Q := fun _ o' => o' = { o with condition := true })
    (fun s hs => ?_) rfl) fun _ _ h => Advances.pure ⟨rfl, h⟩
  exact ⟨hs.1, hs.2, hs.3, fun _ => rfl, hs.5, hs.6⟩

theorem advances_arithmetic {op : Arithmetic} :
    Advances I F o (arithmetic op) fun r o' => (∃ action, r = .value action) ∧
      o' = { o with arithmetic := true } := by
  refine Advances.bind (Advances.modify (Q := fun _ o' => o' = { o with arithmetic := true })
    (fun s hs => ?_) rfl) fun _ _ h => Advances.pure ⟨⟨_, rfl⟩, h⟩
  exact ⟨hs.1, hs.2, hs.3, hs.4, fun _ => rfl, hs.6⟩

/-- What an operation of the kind adds to its block. -/
def Suits (op : PrimOp) : Emitted → Prop
  | .nothing => op.isTerminator = false ∧ op.fills = false
  | .effect _ => op.isTerminator = false ∧ op.fills = false
  | .value _ => op.isTerminator = false ∧ op.fills = true
  | .exit _ => op.isTerminator = true ∧ op.fills = false

theorem advances_primitive (hr : Resolves I F allowed scope.resolve) (op : PrimOp)
    (hfits : Outline.fits allowed o.defined op.roles i.inputs = true)
    (heffect : o.effect i op = some o') (hop : i.op = .prim op) :
    Advances I F o (primitive scope i op) fun r o'' => Suits op r ∧ o'' = o' := by
  have hrole := fun (k : Nat) (role : Role) (hk : op.roles[k]? = some role) =>
    Outline.admits_of_fits hfits hk
  have hoperand : ∀ k, op.roles[k]? = some .operand →
      Advances I F o (operand scope i k) fun _ o' => o' = o := by
    intro k hk
    obtain ⟨input, hinput, hadmits⟩ := hrole k _ hk
    exact advances_operand hr hinput hadmits
  have hraw : ∀ k, op.roles[k]? = some .raw → ∃ n, i.rawInput k = .ok n := by
    intro k hk
    obtain ⟨input, hinput, hadmits⟩ := hrole k _ hk
    obtain ⟨n, rfl⟩ := Outline.raw_of_admits hadmits
    exact ⟨n, by rw [Instr.rawInput, hinput]⟩
  cases op
  case global | receiver | callee | heapTop | heapLimit | trap | phi =>
    cases heffect
    exact Advances.pure ⟨⟨rfl, rfl⟩, rfl⟩
  case literal | code | ret | cacheRet | setHeapTop | alignSize | tailCall | untag | tag | pointer =>
    cases heffect
    exact (hoperand 0 rfl).then fun _ => Advances.pure ⟨⟨rfl, rfl⟩, rfl⟩
  case addBare =>
    cases heffect
    exact (hoperand 0 rfl).then fun _ => (hoperand 1 rfl).then fun _ =>
      Advances.pure ⟨⟨rfl, rfl⟩, rfl⟩
  case stubArg | cacheArg =>
    cases heffect
    obtain ⟨n, hn⟩ := hraw 0 rfl
    exact Advances.ask_bind hn (Advances.pure ⟨⟨rfl, rfl⟩, rfl⟩)
  case arg =>
    cases heffect
    obtain ⟨n, hn⟩ := hraw 0 rfl
    exact Advances.ask_bind hn ((advances_constant hr hr.undefined).then fun _ =>
      Advances.pure ⟨⟨rfl, rfl⟩, rfl⟩)
  case read =>
    cases heffect
    obtain ⟨n, hn⟩ := hraw 1 rfl
    exact (hoperand 0 rfl).then fun _ => Advances.ask_bind hn (Advances.pure ⟨⟨rfl, rfl⟩, rfl⟩)
  case write =>
    cases heffect
    obtain ⟨n, hn⟩ := hraw 1 rfl
    exact (hoperand 0 rfl).then fun _ => Advances.ask_bind hn ((hoperand 2 rfl).then fun _ =>
      Advances.pure ⟨⟨rfl, rfl⟩, rfl⟩)
  case readIndexed =>
    cases heffect
    obtain ⟨scale, hscale⟩ := hraw 3 rfl
    obtain ⟨base, hbase⟩ := hraw 2 rfl
    exact (hoperand 0 rfl).then fun _ => (hoperand 1 rfl).then fun _ =>
      Advances.ask_bind hscale (Advances.ask_bind hbase (Advances.pure ⟨⟨rfl, rfl⟩, rfl⟩))
  case writeIndexed =>
    cases heffect
    obtain ⟨scale, hscale⟩ := hraw 3 rfl
    obtain ⟨base, hbase⟩ := hraw 2 rfl
    exact (hoperand 0 rfl).then fun _ => (hoperand 1 rfl).then fun _ =>
      Advances.ask_bind hscale (Advances.ask_bind hbase ((hoperand 4 rfl).then fun _ =>
        Advances.pure ⟨⟨rfl, rfl⟩, rfl⟩))
  case fill =>
    cases heffect
    obtain ⟨n, hn⟩ := hraw 1 rfl
    exact (hoperand 0 rfl).then fun _ => Advances.ask_bind hn ((hoperand 2 rfl).then fun _ =>
      (hoperand 3 rfl).then fun _ => Advances.pure ⟨⟨rfl, rfl⟩, rfl⟩)
  case toPhi =>
    obtain ⟨input, hinput, hadmits⟩ := hrole 0 _ rfl
    obtain ⟨phi, rfl⟩ := Outline.value_of_admits hadmits
    have htarget : i.passTarget? = some phi := by
      simp [Instr.passTarget?, hop, List.head?_eq_getElem?, hinput, Input.value?]
    simp only [Outline.effect, htarget, Option.map_some] at heffect
    cases heffect
    refine Advances.ask_bind (a := phi) (by rw [Instr.valueInput, hinput]) ?_
    refine (hoperand 1 rfl).then fun value => ?_
    refine Advances.bind (Advances.modify (Q := fun _ o' => o' = { o with passed := phi :: o.passed })
      (fun s hs => ?_) rfl) fun _ _ h => Advances.pure ⟨⟨rfl, rfl⟩, h⟩
    refine ⟨hs.1, hs.2, hs.3, hs.4, hs.5, fun id hid => ?_⟩
    rw [List.lookup_cons]
    by_cases he : id = phi
    · simp [he]
    · have hother : (id == phi) = false := by simpa using he
      rw [hother]
      exact hs.passed id ((List.mem_cons.mp hid).resolve_left he)
  case openArea =>
    obtain ⟨n, hn⟩ := hraw 0 rfl
    simp only [Outline.effect, hn, Option.ite_none_right_eq_some] at heffect
    obtain ⟨h0, hsome⟩ := heffect
    cases hsome
    exact Advances.ask_bind hn ((advances_openArea h0).bind fun _ _ h =>
      Advances.pure ⟨⟨rfl, rfl⟩, h⟩)
  case push =>
    obtain ⟨missing, outer, hareas, rfl⟩ := Outline.areas_of_push heffect
    exact (hoperand 0 rfl).then fun _ => (advances_push hareas).bind fun _ _ h =>
      Advances.pure ⟨⟨rfl, rfl⟩, h⟩
  case call =>
    obtain ⟨outer, hareas, rfl⟩ := Outline.areas_of_call (.inl rfl) heffect
    obtain ⟨argc, hargc⟩ := hraw 2 rfl
    exact (hoperand 0 rfl).then fun _ => (hoperand 1 rfl).then fun _ => Advances.ask_bind hargc
      ((advances_closeArea hareas).bind fun _ _ h => Advances.pure ⟨⟨rfl, rfl⟩, h⟩)
  case callStub =>
    obtain ⟨outer, hareas, rfl⟩ := Outline.areas_of_call (.inr rfl) heffect
    obtain ⟨argc, hargc⟩ := hraw 1 rfl
    refine (hoperand 0 rfl).then fun _ => Advances.ask_bind hargc ((advances_closeArea hareas).bind ?_)
    rintro _ _ rfl
    exact (advances_constant hr hr.undefined).then fun _ => Advances.pure ⟨⟨rfl, rfl⟩, rfl⟩
  case forward =>
    cases heffect
    obtain ⟨start, hstart⟩ := hraw 1 rfl
    refine (hoperand 0 rfl).then fun argc => Advances.ask_bind hstart ?_
    refine Advances.bind (Advances.modify (Q := fun _ o' => o' = { o with forwarded := true })
      (fun s hs => ?_) rfl) fun _ _ h => Advances.pure ⟨⟨rfl, rfl⟩, h⟩
    exact ⟨hs.1, hs.2, fun _ => rfl, hs.4, hs.5, hs.6⟩
  case forwardCall =>
    simp only [Outline.effect, Option.ite_none_right_eq_some] at heffect
    obtain ⟨hforwarded, hsome⟩ := heffect
    cases hsome
    refine (hoperand 0 rfl).then fun callee => (hoperand 1 rfl).then fun receiver => ?_
    refine Advances.get_bind fun s hs => ?_
    obtain ⟨arguments, hcases⟩ := Option.isSome_iff_exists.mp (hs.forwarded hforwarded)
    rw [hcases]
    refine Advances.bind (Advances.modify (Q := fun _ o' => o' = { o with forwarded := false })
      (fun s hs => ?_) rfl) fun _ _ h => Advances.pure ⟨⟨rfl, rfl⟩, h⟩
    exact ⟨hs.1, hs.2, fun h => (by cases h), hs.4, hs.5, hs.6⟩
  case isSmi =>
    cases heffect
    refine (hoperand 0 rfl).then fun _ => advances_setCondition.mono ?_
    rintro _ _ ⟨rfl, h⟩
    exact ⟨⟨rfl, rfl⟩, h⟩
  case isTrue =>
    cases heffect
    refine (hoperand 0 rfl).then fun _ => (advances_constant hr (hr.bool true)).then fun _ =>
      advances_setCondition.mono ?_
    rintro _ _ ⟨rfl, h⟩
    exact ⟨⟨rfl, rfl⟩, h⟩
  case isUndefined =>
    cases heffect
    refine (hoperand 0 rfl).then fun _ => (advances_constant hr hr.undefined).then fun _ =>
      advances_setCondition.mono ?_
    rintro _ _ ⟨rfl, h⟩
    exact ⟨⟨rfl, rfl⟩, h⟩
  case testBits =>
    cases heffect
    obtain ⟨mask, hmask⟩ := hraw 1 rfl
    refine (hoperand 0 rfl).then fun _ => Advances.ask_bind hmask (advances_setCondition.mono ?_)
    rintro _ _ ⟨rfl, h⟩
    exact ⟨⟨rfl, rfl⟩, h⟩
  case compareSmi | comparePointer =>
    cases heffect
    obtain ⟨input, hinput, hadmits⟩ := hrole 2 _ rfl
    obtain ⟨cond, rfl⟩ := Outline.cond_of_admits hadmits
    refine (hoperand 0 rfl).then fun _ => (hoperand 1 rfl).then fun _ =>
      (advances_compareInput hinput).then fun _ => advances_setCondition.mono ?_
    rintro _ _ ⟨rfl, h⟩
    exact ⟨⟨rfl, rfl⟩, h⟩
  case overflowed =>
    simp only [Outline.effect, Option.ite_none_right_eq_some] at heffect
    obtain ⟨harithmetic, hsome⟩ := heffect
    cases hsome
    refine Advances.get_bind fun s hs => ?_
    obtain ⟨last, hcases⟩ := Option.isSome_iff_exists.mp (hs.arithmetic harithmetic)
    rw [hcases]
    refine Advances.bind (Advances.modify (Q := fun _ o' => o' = { o with arithmetic := false })
      (fun s hs => ?_) rfl) ?_
    · exact ⟨hs.1, hs.2, hs.3, hs.4, fun h => (by cases h), hs.6⟩
    · rintro _ _ rfl
      refine advances_setCondition.mono ?_
      rintro _ _ ⟨rfl, h⟩
      exact ⟨⟨rfl, rfl⟩, h⟩
  case neg =>
    cases heffect
    refine (hoperand 0 rfl).then fun _ => advances_arithmetic.mono ?_
    rintro _ _ ⟨⟨action, rfl⟩, h⟩
    exact ⟨⟨rfl, rfl⟩, h⟩
  case add | sub | mul =>
    cases heffect
    refine (hoperand 0 rfl).then fun _ => (hoperand 1 rfl).then fun _ => advances_arithmetic.mono ?_
    rintro _ _ ⟨⟨action, rfl⟩, h⟩
    exact ⟨⟨rfl, rfl⟩, h⟩

theorem advances_instructions (hr : Resolves I F allowed scope.resolve) {b : BlockId}
    {ids : List InstrId} {ended : Bool} {body : List MachineInstr}
    (h : Outline.instructions allowed scope.graph ids o = some (o', ended)) :
    Advances I F o (instructions scope b ids body) fun r o'' => r.2.isSome = ended ∧ o'' = o' := by
  induction ids generalizing o body with
  | nil =>
    cases h
    exact Advances.pure ⟨rfl, rfl⟩
  | cons id rest ih =>
    obtain ⟨i, op, o₁, hget, hop, hstep, hrest⟩ := Outline.instructions_cons h
    obtain ⟨o₂, hfits, heffect, rfl⟩ := Outline.step_eq_some hstep
    refine Advances.ask_bind (a := i) (by rw [Graph.instr, hget]) ?_
    rw [hop]
    refine (advances_primitive hr op hfits heffect hop).bind ?_
    rintro emitted o₃ ⟨hsuits, ho⟩
    subst o₃
    cases emitted with
    | nothing =>
      rw [hsuits.2] at hrest
      exact ih (hrest.resolve_left fun h => by simp [hsuits.1] at h).2
    | effect action =>
      rw [hsuits.2] at hrest
      exact ih (hrest.resolve_left fun h => by simp [hsuits.1] at h).2
    | value action =>
      rw [hsuits.2] at hrest
      refine Advances.bind (Advances.modify
        (Q := fun _ o' => o' = { o₂ with defined := i.id :: o₂.defined }) (fun s hs => ?_) rfl) ?_
      · refine ⟨fun x hx => ?_, hs.2, hs.3, hs.4, hs.5, hs.6⟩
        rw [Std.TreeSet.contains_insert]
        rcases List.mem_cons.mp hx with rfl | hx
        · simp
        · simp [hs.defined x hx]
      · rintro _ _ rfl
        exact ih (hrest.resolve_left fun h => by simp [hsuits.1] at h).2
    | exit exit =>
      rw [hsuits.2] at hrest
      obtain ⟨-, rfl, rfl, rfl⟩ := hrest.resolve_right fun h => by simp [hsuits.1] at h
      exact Advances.pure ⟨rfl, rfl⟩

theorem advances_edge {target : BlockId} (h : o.edge scope.graph target = true) :
    Advances I F o (edge scope target) fun _ o' => o' = o := by
  unfold Outline.edge at h
  cases hphis : scope.graph.phis target with
  | error err =>
    rw [hphis] at h
    cases h
  | ok phis =>
    rw [hphis] at h
    refine Advances.ask_bind hphis (Advances.get_bind fun s hs => ?_)
    refine Advances.then ?_ fun _ => Advances.pure rfl
    have hgiven : ∀ phi ∈ phis, (s.phiArgs.lookup phi).isSome = true := fun phi hphi =>
      hs.passed phi (by simpa using List.all_eq_true.mp h phi hphi)
    clear h hphis
    induction phis with
    | nil => exact Advances.pure rfl
    | cons phi rest ih =>
      rw [List.mapM_cons]
      obtain ⟨value, hvalue⟩ := Option.isSome_iff_exists.mp (hgiven phi (by simp))
      rw [hvalue]
      exact Advances.then (Advances.pure rfl) fun _ =>
        (ih fun phi hphi => hgiven phi (by simp [hphi])).then fun _ => Advances.pure rfl

theorem advances_fallThrough {b : BlockId} {content : Block}
    (hblock : scope.graph.block b = .ok content)
    (h : o.fallThrough scope.graph content.successors = true) :
    Advances I F o (fallThrough scope b) fun _ o' => o' = o := by
  refine Advances.ask_bind hblock ?_
  generalize content.successors = next at h
  rcases next with _ | ⟨yes, _ | ⟨no, _ | ⟨third, rest⟩⟩⟩
  · cases h
  · exact (advances_edge h).then fun _ => Advances.pure rfl
  · simp only [Outline.fallThrough, Bool.and_eq_true] at h
    refine Advances.get_bind fun s hs => ?_
    obtain ⟨condition, hcondition⟩ := Option.isSome_iff_exists.mp (hs.condition h.1.1)
    rw [hcondition]
    exact (advances_edge h.1.2).then fun _ => (advances_edge h.2).then fun _ => Advances.pure rfl
  · cases h

theorem contains_foldl_insert {ids : List InstrId} {set : Std.TreeSet InstrId} {id : InstrId}
    (h : id ∈ ids ∨ set.contains id = true) : (ids.foldl (·.insert ·) set).contains id = true := by
  induction ids generalizing set with
  | nil => exact h.resolve_left (by simp)
  | cons first rest ih =>
    apply ih
    rw [Std.TreeSet.contains_insert]
    rcases h with hmem | hset
    · rcases List.mem_cons.mp hmem with rfl | hmem
      · simp
      · exact .inl hmem
    · simp [hset]

theorem advances_block (hr : Resolves I F allowed scope.resolve) {b : BlockId}
    (h : o.block allowed scope.graph b = some o') :
    Advances I F o (block scope b) fun _ o'' => o'' = o' := by
  obtain ⟨params, content, ended, hphis, hblock, hinstrs, hexit⟩ := Outline.block_eq_some h
  refine Advances.bind (Advances.modify (Q := fun _ o' => o' =
    { o with condition := false, arithmetic := false, passed := [] }) (fun s hs => ?_) rfl) ?_
  · exact ⟨hs.1, hs.2, hs.3, fun h => (by cases h), fun h => (by cases h), fun _ h => (by cases h)⟩
  rintro _ _ rfl
  refine Advances.ask_bind hphis ?_
  refine Advances.when (o.enter b params) ?_ ?_ fun _ => ?_
  · intro hb s hs
    refine ⟨fun id hid => ?_, hs.2, hs.3, hs.4, hs.5, hs.6⟩
    simp only [Outline.enter, if_neg hb, List.mem_append] at hid
    exact contains_foldl_insert (hid.imp_right (hs.defined id))
  · intro hb
    simp only [Outline.enter, if_pos (not_not.mp hb)]
  · refine Advances.ask_bind hblock ?_
    refine (advances_instructions hr hinstrs).bind ?_
    rintro ⟨body, last⟩ _ ⟨hended, rfl⟩
    cases last with
    | some exit => exact Advances.pure rfl
    | none =>
      cases hended
      have hfall := hexit.resolve_left (by simp)
      exact (advances_fallThrough hblock hfall).then fun _ => Advances.pure rfl

theorem advances_blocks (hr : Resolves I F allowed scope.resolve) {order : List BlockId}
    (h : Outline.blocks allowed scope.graph order o = some o') :
    Advances I F o (order.mapM (block scope)) fun _ o'' => o'' = o' := by
  induction order generalizing o with
  | nil =>
    cases h
    exact Advances.pure rfl
  | cons b rest ih =>
    obtain ⟨o₁, hblock, hrest⟩ := Option.bind_eq_some_iff.mp h
    rw [List.mapM_cons]
    refine (advances_block hr hblock).bind ?_
    rintro _ _ rfl
    exact (ih hrest).bind fun _ _ h => Advances.pure h

end

end Emission

/-- Code is generated for a graph whose outline can be drawn, unless a constant has no word. -/
theorem keeps_emitProgram {I : Engine → Prop} {F : CompileError → Prop} {allowed : Const → Bool}
    {scope : EmissionScope} (hr : Emission.Resolves I F allowed scope.resolve)
    (h : Outline.accepts allowed scope.graph = true) :
    Keeps I F (emitProgram scope) fun _ => True := by
  unfold Outline.accepts at h
  cases horder : scope.graph.reversePostorder with
  | error err =>
    rw [horder] at h
    cases h
  | ok order =>
    rw [horder] at h
    obtain ⟨o, ho⟩ := Option.isSome_iff_exists.mp h
    have hstart : Emission.Meets { record := { name := scope.graph.name } } {} :=
      ⟨fun _ h => (by cases h), .nil, fun h => (by cases h), fun h => (by cases h),
        fun h => (by cases h), fun _ h => (by cases h)⟩
    have hblocks := Emission.advances_blocks hr ho _ hstart
    have hphis : ∀ b ∈ order, ∃ params, scope.graph.phis b = .ok params := by
      intro b hb
      exact Outline.phis_of_blocks ho hb
    unfold emitProgram
    rw [horder]
    refine Keeps.bind (Q := fun found => found = order) (Keeps.pure rfl) fun found hfound => ?_
    subst found
    refine Keeps.bind (Q := fun _ => True) ?_ fun _ _ => ?_
    · clear hblocks ho h horder
      induction order with
      | nil => exact Keeps.pure trivial
      | cons b rest ih =>
        obtain ⟨params, hb⟩ := hphis b (by simp)
        rw [List.forIn_cons, hb]
        exact ih fun b hb => hphis b (by simp [hb])
    · exact hblocks.bind fun _ _ => Keeps.pure trivial

end Engine
end ScriptEngine
