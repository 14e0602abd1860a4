import ScriptEngine.Engine
import ScriptEngine.Proofs.Engine.Inquiry
import ScriptEngine.Proofs.Engine.Plans

/-!
Everything that an engine does follows a plan: compilation, with the stubs and inline caches that it
makes necessary, code generation, execution and the callbacks of the host.
-/

namespace ScriptEngine.Engine

open State

/-- The plan that an operation follows. -/
structure Planned {ε α : Type} (x : EStateM ε Engine α) where
  plan : Plan ε α
  run_plan : plan.run = x

namespace Planned

variable {ε α β : Type}

def consult (question : Engine → Except ε α) : Planned (consult question) :=
  ⟨.consult question, rfl⟩

def congr {x y : EStateM ε Engine α} (hx : Planned x) (h : ∀ e, y e = x e) : Planned y :=
  ⟨hx.plan, hx.run_plan.trans (funext h).symm⟩

def pure (a : α) : Planned (pure a : EStateM ε Engine α) := ⟨.consult fun _ => .ok a, rfl⟩

def throw (err : ε) : Planned (throw err : EStateM ε Engine α) :=
  ⟨.consult fun _ => .error err, rfl⟩

def get : Planned (get : EStateM ε Engine Engine) := ⟨.consult fun e => .ok e, rfl⟩

def bind {x : EStateM ε Engine α} {f : α → EStateM ε Engine β} (hx : Planned x)
    (hf : ∀ a, Planned (f a)) : Planned (x >>= f) where
  plan := .bind hx.plan fun a => (hf a).plan
  run_plan := by
    simp only [Plan.run, hx.run_plan, (hf _).run_plan]

theorem unwound {x : EStateM ε Engine α} (hx : Planned x) (e : Engine) :
    Unwound e (finalState x e) := by
  rw [← hx.run_plan]
  exact hx.plan.unwound e

def discard {x : EStateM ε Engine α} (hx : Planned x) : Planned (discard x) :=
  (hx.bind fun _ => pure PUnit.unit).congr fun e => by
    change EStateM.map (fun _ => PUnit.unit) x e = EStateM.bind x (fun _ => EStateM.pure PUnit.unit) e
    unfold EStateM.map EStateM.bind
    cases x e <;> rfl

def update {f : Engine → Engine} (calm : ∀ e, Unwound e (f e)) :
    Planned (modify f : EStateM ε Engine Unit) := ⟨.change f calm, rfl⟩

def onHeap (wrap : HeapError → ε) {act : HeapM α} (rooting : ∀ h, Heap.Rooting act h) :
    Planned (Engine.onHeap wrap act) := ⟨.onHeap wrap act rooting, rfl⟩

def withScope (kind : ScopeKind) {act : EStateM ε Engine α} (inside : Planned act) :
    Planned (Engine.withScope kind act) where
  plan := .scope kind inside.plan
  run_plan := by rw [Plan.run, inside.run_plan]

def withContext (context : CompileContext) {act : Nat → EStateM ε Engine α}
    (inside : ∀ depth, Planned (act depth)) : Planned (Engine.withContext context act) where
  plan := .unit context fun depth => (inside depth).plan
  run_plan := by simp only [Plan.run, (inside _).run_plan]

def marking (name : String) {build : CompileM Stub} (inside : Planned build) :
    Planned (Engine.marking name build) where
  plan := .stub name inside.plan
  run_plan := by rw [Plan.run, inside.run_plan]

def compiling {act : CompileM α} (inside : Planned act) : Planned (Engine.compiling act) where
  plan := .compiling inside.plan
  run_plan := by rw [Plan.run, inside.run_plan]

def rescuing {act : EStateM ε Engine α} {handler : ε → EStateM ε Engine α}
    (inside : Planned act) (after : ∀ err, Planned (handler err)) :
    Planned (Engine.rescuing act handler) where
  plan := .rescuing inside.plan fun err => (after err).plan
  run_plan := by simp only [Plan.run, inside.run_plan, (after _).run_plan]

def ite {c : Prop} [Decidable c] {x y : EStateM ε Engine α} (hx : Planned x) (hy : Planned y) :
    Planned (if c then x else y) := by
  split
  · exact hx
  · exact hy

def forM {l : List α} {f : α → EStateM ε Engine PUnit} (hf : ∀ a, Planned (f a)) :
    Planned (l.forM f) := by
  induction l with
  | nil => exact Planned.pure PUnit.unit
  | cons a l ih => exact (hf a).bind fun _ => ih

def forIn {l : List α} {f : α → β → EStateM ε Engine (ForInStep β)}
    (hf : ∀ a b, Planned (f a b)) (b : β) : Planned (forIn l b f) := by
  induction l generalizing b with
  | nil => exact Planned.pure b
  | cons a l ih =>
    rw [List.forIn_cons]
    refine (hf a b).bind fun step => ?_
    cases step with
    | done b => exact Planned.pure b
    | yield b => exact ih b

def foldlM {l : List α} {f : β → α → EStateM ε Engine β} (hf : ∀ b a, Planned (f b a)) (b : β) :
    Planned (l.foldlM f b) := by
  induction l generalizing b with
  | nil => exact Planned.pure b
  | cons a l ih => exact (hf b a).bind ih

end Planned

section

variable {ε α : Type}

/-- Changes of anything but stacks, stubs and events. -/
def Planned.assign {f : Engine → Engine}
    (contexts : ∀ e, (f e).contexts = e.contexts := by exact fun _ => rfl)
    (scopes : ∀ e, (f e).heap.scopes = e.heap.scopes := by exact fun _ => rfl)
    (stubs : ∀ e, (f e).stubs = e.stubs := by exact fun _ => rfl)
    (events : ∀ e, (f e).events = e.events := by exact fun _ => rfl) :
    Planned (modify f : EStateM ε Engine Unit) :=
  .update fun e => .of_eq (contexts e) (scopes e) (stubs e) (events e)

def plannedLiftExcept (x : Except ε α) : Planned (liftExcept x) := by
  cases x with
  | ok a => exact .pure a
  | error err => exact .throw err

def plannedAskHeap (wrap : HeapError → ε) (question : Heap → Except HeapError α) :
    Planned (askHeap wrap question) := by
  have heq : askHeap wrap question = consult fun e => (question e.heap).mapError wrap := by
    funext e
    simp only [askHeap, consult]
    cases question e.heap <;> rfl
  rw [heq]
  exact .consult _

def plannedEmitEvent {event : Event} (h : event.isFailure = false) :
    Planned (emitEvent event : EStateM ε Engine Unit) := .update fun _ => .push h

def plannedBuildGraph (graph : Except GraphError Graph) : Planned (buildGraph graph) := by
  cases graph with
  | ok g => exact .pure g
  | error e => exact .throw _

end

/-! ### Compilation of units -/

section

variable {compile : UnitCompiler}

/-- Compilers of units that follow plans. -/
def PlansUnits (compile : UnitCompiler) : Type 1 :=
  ∀ graph kind nested, Planned (compile graph kind nested)

def plannedBuildStub (hc : PlansUnits compile) (name : String) (source : StubSource) :
    Planned (buildStub compile name source) := by
  have hwrap : ∀ code : Word, Planned (do
      let function ← onHeap .heap (Heap.allocBuiltinFunction code)
      return { function, code } : CompileM Stub) := fun code =>
    .bind (.onHeap _ fun _ => Heap.rooting_allocBuiltinFunction code) fun _ => .pure _
  refine .withScope _ ?_
  simp only
  split
  · exact .bind (.onHeap _ fun _ => Heap.rooting_allocCode _ _ _) hwrap
  · exact (plannedBuildGraph _).bind fun _ => (hc _ _ _).bind hwrap

def plannedStub (hc : PlansUnits compile) (name : String) : Planned (stub compile name) := by
  refine .bind .get fun e => ?_
  split
  · exact .pure _
  · exact .bind .get fun _ => (plannedLiftExcept _).bind fun source =>
      .marking name (plannedBuildStub hc name source)

def plannedNewCache (hc : PlansUnits compile) (kind : CacheKind) :
    Planned (newCache compile kind) :=
  .withScope _ ((plannedBuildGraph _).bind fun _ => (hc _ _ _).bind fun code =>
    .bind (.onHeap _ fun _ => Heap.rooting_allocBuiltinFunction code) fun _ =>
      .bind .assign fun _ => .pure _)

theorem resolve_small {nested : Array (Option Word)} {n : Int} {w : Word}
    (h : Word.ofSmi? n = some w) : resolve compile nested (.smi n) = pure w := by
  simp only [resolve, h]

theorem resolve_large {nested : Array (Option Word)} {n : Int} (h : Word.ofSmi? n = none) :
    resolve compile nested (.smi n) = onHeap .heap (Heap.number (.ofInt n)) := by
  simp only [resolve, h]

theorem resolve_code {nested : Array (Option Word)} {index : Nat} {code : Word}
    (h : nested[index]?.join = some code) :
    resolve compile nested (.function index) = pure code := by
  simp only [resolve, h]

theorem resolve_missing {nested : Array (Option Word)} {index : Nat}
    (h : nested[index]?.join = none) :
    resolve compile nested (.function index) = throw (.unknownFunction index) := by
  simp only [resolve, h]

def plannedResolve (hc : PlansUnits compile) (nested : Array (Option Word)) :
    (c : Const) → Planned (resolve compile nested c)
  | .raw _ => .pure _
  | .smi n =>
    match h : Word.ofSmi? n with
    | some w => (Planned.pure w).congr fun e => congrFun (resolve_small h) e
    | none =>
      (Planned.onHeap .heap fun _ => Heap.rooting_number _).congr fun e =>
        congrFun (resolve_large h) e
  | .number _ => .onHeap _ fun _ => Heap.rooting_number _
  | .text _ => .onHeap _ fun _ => Heap.rooting_string _
  | .bool _ | .undefined | .null | .hole | .shape _ => .bind .get fun _ => .pure _
  | .heap _ | .weak _ => .pure _
  | .stub _ => (plannedStub hc _).bind fun _ => .pure _
  | .callback _ => (plannedLiftExcept _).bind fun _ => .pure _
  | .function index =>
    match h : nested[index]?.join with
    | some code => (Planned.pure code).congr fun e => congrFun (resolve_code h) e
    | none =>
      (Planned.throw (.unknownFunction index)).congr fun e => congrFun (resolve_missing h) e
  | .cache _ => plannedNewCache hc _
  | .cond _ | .binary _ | .unary _ => .throw _

def plannedTraceDump (traced : Bool) (graph : Graph) (kind : UnitKind) (stage : String) :
    Planned (traceDump traced graph kind stage) := .ite (plannedEmitEvent rfl) (.pure _)

def plannedLowerGraph (graph : Graph) : Planned (lowerGraph graph) := by
  refine .bind (.forM fun _ => plannedEmitEvent rfl) fun _ => ?_
  split
  · exact .throw _
  · exact .pure _

def plannedDefineRoutine (program : Program) : Planned (defineRoutine program) := by
  have hkeep : Planned (do
      let entry := (← get).routines.size
      modify fun e => { e with routines := e.routines.push (.program program) }
      return entry : CompileM Nat) :=
    .bind .get fun _ => .bind .assign
      fun _ => .pure _
  exact .ite (.throw _) hkeep

end

/-! ### Code generation -/

def Inquiry.planned {α : Type} {resolve : Const → CompileM Word}
    (hr : ∀ c, Planned (resolve c)) : (q : Inquiry α) → Planned (q.run resolve)
  | .done _ => .pure _
  | .fail _ => .throw _
  | .ask c next => (hr c).bind fun w => (next w).planned hr

def plannedEmitProgram {scope : EmissionScope} (hr : ∀ c, Planned (scope.resolve c)) :
    Planned (emitProgram scope) :=
  ((emission scope.graph scope.trapOnEntry).planned hr).congr fun e =>
    (congrFun (run_emission scope.graph scope.trapOnEntry scope.resolve) e).symm

/-! ### Units, scripts and misses -/

def plansCompileNested (nesting : Nat) : PlansUnits (compileNested nesting) := by
  induction nesting with
  | zero => exact fun _ _ _ => .throw _
  | succ nesting ih =>
    intro graph kind nested
    refine .bind .get fun _ => .withContext _ fun depth => .bind .get fun _ =>
      (plannedTraceDump _ _ _ _).bind fun _ => (plannedTraceDump _ _ _ _).bind fun _ =>
      (plannedLowerGraph _).bind fun lowered => (plannedTraceDump _ _ _ _).bind fun _ =>
      .bind .get fun _ => .bind (plannedEmitProgram fun c => plannedResolve ih nested c)
        fun emitted => ?_
    have hrest : ∀ outer, Planned (do
        let entry ← defineRoutine emitted.1
        emitEvent (.compiled lowered.name kind depth outer lowered.instrs.size)
        onHeap .heap (Heap.allocCode entry 0 emitted.2) : CompileM Word) := fun _ =>
      (plannedDefineRoutine _).bind fun _ => (plannedEmitEvent rfl).bind fun _ =>
        .onHeap _ fun _ => Heap.rooting_allocCode _ _ _
    exact .ite ((plannedEmitEvent rfl).bind fun _ => hrest _) (hrest _)

def plannedCompileUnit (graph : Graph) (kind : UnitKind) (nested : Array (Option Word)) :
    Planned (compileUnit graph kind nested) :=
  .bind .get fun _ => plansCompileNested _ _ _ _

def plannedGetStub (name : String) : Planned (getStub name) :=
  .bind .get fun _ => plannedStub (plansCompileNested _) name

def plannedInstallBuiltins : Planned installBuiltins :=
  (plannedGetStub "noop").discard.bind fun _ => (plannedGetStub "log").bind fun log =>
    .bind (.onHeap _ fun _ => Heap.rooting_string "log") fun key => .bind .get fun e =>
      .onHeap _ fun _ => Heap.rooting_setProperty e.global key log.function

def plannedCompileScript (graphs : Array Graph) : Planned (compileScript graphs) := by
  refine .withScope _ (.bind (.foldlM (fun codes entry => ?_) _) fun codes => ?_)
  · exact (plannedCompileUnit _ _ _).bind fun _ => .pure _
  · split
    · exact .pure _
    · exact .throw _

def plannedCompile (source : String) : Planned (compile source) := by
  unfold compile
  split
  · exact .throw _
  · exact (plannedCompileScript _).bind fun code =>
      .bind (.onHeap _ fun _ => Heap.rooting_allocFunction code) fun function =>
        .bind (.onHeap _ fun _ => Heap.rooting_root function) fun _ => .pure _

def plannedRegenerate (cache : InlineCache) : Planned (regenerate cache) :=
  .withScope _ ((plannedBuildGraph _).bind fun _ => (plannedCompileUnit _ _ _).bind fun _ =>
    (plannedAskHeap _ _).bind fun _ => (plannedAskHeap _ _).bind fun _ =>
      (plannedAskHeap _ _).bind fun _ =>
        .bind (.onHeap _ fun _ => Heap.rooting_installEntry _ _ _) fun _ =>
          .onHeap _ fun _ => Heap.rooting_modifyRecord _ _)

def plannedCacheOf (function : Word) : Planned (cacheOf function) := by
  refine .bind .get fun e => ?_
  split
  · exact .pure _
  · exact .throw _

def plannedRecordProbe (function shape key : Word) (exact : Bool) (slot : Nat) :
    Planned (recordProbe function shape key exact slot) := by
  have hkeep : ∀ cache : InlineCache, Planned (modify fun e =>
      { e with caches := e.caches.insert function cache } : CompileM Unit) := fun _ =>
    .assign
  exact (plannedCacheOf _).bind fun cache => .ite (.pure _) (.bind .get fun e =>
    .ite ((plannedEmitEvent rfl).bind fun _ => hkeep _)
      (.ite ((plannedRegenerate _).bind fun _ => hkeep _) (.pure _)))

def plannedGetPropertySlot (function object key update : Word) :
    Planned (getPropertySlot function object key update) := by
  refine .bind .get fun e => .ite (.pure _) (.bind (.onHeap _ fun _ => Heap.rooting_propertyKey _ _)
    fun stored => .bind .get fun e => ?_)
  simp only
  split
  · rename_i slot _
    split
    · exact .pure _
    · rename_i shape _
      have hplan : Planned (do
          compiling (recordProbe function shape stored (key == stored) slot)
          return .smi slot : RunM Word) :=
        (plannedRecordProbe _ _ _ _ _).compiling.bind fun _ => .pure _
      refine hplan.congr fun e => ?_
      cases hrun : recordProbe function shape stored (key == stored) slot e with
      | ok u t =>
        simp only [EStateM.run, hrun]
        rw [bind_of_ok (compiling_ok hrun)]
        rfl
      | error err t =>
        simp only [EStateM.run, hrun]
        exact (bind_of_error (compiling_error hrun)).symm
  · refine .ite (.bind (.onHeap _ fun _ => Heap.rooting_lookupSlot _ _ _) fun slot => ?_) (.pure _)
    split
    · exact .pure _
    · exact .pure _

/-! ### Callbacks and execution -/

def plannedRecordError (err : RunError) : Planned (recordError err) :=
  .assign

def plannedArgument (args : List Word) (index : Nat) : Planned (argument args index) := by
  unfold argument
  split
  · exact .pure _
  · exact .throw _

def plannedHeapStep {α : Type} {act : HeapM α} (rooting : ∀ h, Heap.Rooting act h) :
    Planned (heapStep act) := .onHeap _ rooting

def plannedAnswer (question : Heap → Bool) : Planned (answer question) :=
  .bind .get fun _ => .pure _

def plannedArithmetic (op : Double → Double → Double) (left right : Word) :
    Planned (arithmetic op left right) :=
  .bind .get fun _ => plannedHeapStep fun _ => Heap.rooting_number _

def plannedAddValues (left right : Word) : Planned (addValues left right) :=
  .bind .get fun _ => .ite (plannedHeapStep fun _ => Heap.rooting_string _)
    (plannedArithmetic _ _ _)

def plannedInstanceOf (object constructor : Word) : Planned (instanceOf object constructor) := by
  refine .bind (plannedHeapStep fun _ => Heap.rooting_instanceOf _ _) fun result => ?_
  split
  · exact .bind .get fun _ => .pure _
  · exact .bind .get fun _ => .throw _

def plannedAllocSlow (shape size : Word) : Planned (allocSlow shape size) := by
  unfold allocSlow
  split
  · exact .ite (plannedHeapStep fun _ => Heap.rooting_allocYoung _ _) (.throw _)
  · exact .throw _

def plannedTypeError (callee : Word) : Planned (typeError callee) :=
  .bind .get fun _ => (plannedEmitEvent rfl).bind fun _ => (plannedRecordError _).bind fun _ =>
    (plannedGetStub _).compiling.bind fun _ => .pure _

def plannedLog (value : Word) : Planned (log value) := by
  have hend : Planned (do return (← get).heap.undefined : RunM Word) := .bind .get fun _ => .pure _
  exact .bind .get fun _ => .bind .get fun _ => .ite
    (.bind .assign fun _ => hend)
    ((plannedEmitEvent rfl).bind fun _ => hend)

def plannedCallback (name : String) (args : List Word) : Planned (callback name args) := by
  have harg := plannedArgument args
  unfold callback
  simp only
  split
  · exact (harg 0).bind fun _ => (harg 1).bind fun _ =>
      plannedHeapStep fun _ => Heap.rooting_getProperty _ _
  · exact (harg 0).bind fun _ => (harg 1).bind fun _ => (harg 2).bind fun _ =>
      (plannedHeapStep fun _ => Heap.rooting_setProperty _ _ _).bind fun _ => .pure _
  · exact (harg 0).bind fun _ => (harg 1).bind fun _ =>
      (plannedHeapStep fun _ => Heap.rooting_deleteProperty _ _).bind fun _ =>
        .bind .get fun _ => .pure _
  · split
    · exact plannedGetPropertySlot _ _ _ _
    · exact .throw _
  · exact (harg 0).bind fun _ => (harg 1).bind fun _ => plannedAllocSlow _ _
  · exact (harg 0).bind fun _ => plannedAnswer _
  · exact (harg 0).bind fun _ => .bind .get fun _ => plannedHeapStep fun _ => Heap.rooting_number _
  · exact (harg 0).bind fun _ => plannedTypeError _
  · exact (harg 0).bind fun _ => plannedLog _
  · refine (harg 0).bind fun _ => (harg 1).bind fun _ => ?_
    split
    · exact plannedAddValues _ _
    · exact plannedArithmetic _ _ _
    · exact plannedArithmetic _ _ _
    iterate 4 exact plannedAnswer _
    · exact plannedInstanceOf _ _
    · exact .throw _

def plannedDispatch (args : List Word) : Planned (dispatch args) := by
  unfold dispatch
  split
  · exact .throw _
  · split
    · exact .throw _
    · refine .ite (.throw _) ?_
      split
      · exact .throw _
      · exact (plannedEmitEvent rfl).bind fun _ => plannedCallback _ _

def plannedCallHost (args : List Word) : Planned (callHost args) := by
  have hplan : Planned (rescuing (dispatch args) fun err => do
      recordError err
      return (← get).heap.undefined) :=
    .rescuing (plannedDispatch args) fun _ => (plannedRecordError _).bind fun _ =>
      .bind .get fun _ => .pure _
  refine hplan.congr fun e => ?_
  cases hrun : dispatch args e with
  | ok value t => simp only [callHost, rescuing, EStateM.run, hrun]
  | error err t => simp only [callHost, rescuing, EStateM.run, hrun]

namespace Machine

/-- Callers that follow plans. -/
def PlansCalls (call : Caller) : Type 1 := ∀ entry self, Planned (call entry self)

variable {call : Caller}

def plannedLoad (address : Nat) : Planned (load address) := .bind .get fun _ => .pure _

def plannedTrap : Planned trap :=
  .bind .get fun _ => .ite (.bind (.throw _) fun _ =>
    .assign)
    .assign

def plannedChangeMemory (f : Memory → Memory) : Planned (changeMemory f) :=
  .assign

def plannedCallFunction (hc : PlansCalls call) (target : Word) (activation : Activation) :
    Planned (callFunction call target activation) :=
  (plannedLoad _).bind fun _ => (plannedLoad _).bind fun _ => hc _ _

def plannedPerform (hc : PlansCalls call) (self : Activation) (regs : Registers)
    (action : Action) : Planned (perform call self regs action) := by
  unfold perform
  split
  · exact .pure _
  · exact .bind .get fun _ => .pure _
  · exact .pure _
  · exact .pure _
  · exact plannedLoad _
  · exact plannedLoad _
  · exact .bind .get fun _ => .pure _
  · exact .bind .get fun _ => .pure _
  iterate 8 exact .pure _
  · exact plannedCallFunction hc _ _
  · exact plannedCallFunction hc _ _
  · exact plannedTrap.bind fun _ => .pure _
  iterate 3 exact (plannedChangeMemory _).bind fun _ => .pure _
  · exact .bind .assign fun _ => .pure _

def plannedRunBody (hc : PlansCalls call) (self : Activation) (body : List MachineInstr)
    (regs : Registers) : Planned (runBody call self body regs) := by
  induction body generalizing regs with
  | nil => exact .pure _
  | cons i rest ih =>
    refine (plannedPerform hc self regs i.action).bind fun result => ?_
    split
    · exact ih _
    · exact ih _

def plannedRunFrom (hc : PlansCalls call) (program : Program) (self : Activation) (jumps : Nat)
    (id : BlockId) (regs : Registers) : Planned (runFrom call program self jumps id regs) := by
  induction jumps generalizing id regs with
  | zero => exact .throw _
  | succ jumps ih =>
    unfold runFrom
    split
    · exact .throw _
    · refine (plannedRunBody hc self _ regs).bind fun regs => ?_
      split
      · exact .pure _
      · exact plannedCallFunction hc _ _
      · exact ih _ _
      · exact ih _ _

def plansEnter (depth : Nat) : PlansCalls (enter depth) := by
  induction depth with
  | zero => exact fun _ _ => .throw _
  | succ depth ih =>
    intro entry self
    refine .bind .get fun e => ?_
    split
    · exact .throw _
    · exact plannedCallHost _
    · exact .ite (plannedTrap.bind fun _ => plannedRunFrom ih _ _ _ _ _)
        (plannedRunFrom ih _ _ _ _ _)

end Machine

def plannedInvoke (function receiver : Word) (args : List Word) :
    Planned (invoke function receiver args) := by
  refine (plannedAskHeap _ _).bind fun code => (plannedAskHeap _ _).bind fun entry =>
    .bind .assign fun _ =>
      (Machine.plansEnter _ _ _).bind fun result => .bind .get fun e => ?_
  split
  · exact .bind .assign fun _ => .throw _
  · exact .pure _

def plannedCall (function : Word) (args : List Word) : Planned (call function args) :=
  .bind .get fun _ => plannedInvoke _ _ _

def plannedEval (source : String) : Planned (eval source) :=
  (plannedCompile source).compiling.bind fun _ => plannedCall _ _

/-! ### Requests -/

/-- What an engine may be asked from outside, and what compiled code may ask it. -/
inductive Request where
  | compile (source : String)
  | eval (source : String)
  | call (function receiver : Word) (args : List Word)
  /-- A miss of an inline cache. -/
  | miss (cache object key update : Word)
  /-- Compilation of a graph that somebody built. -/
  | unit (graph : Graph) (kind : UnitKind) (nested : Array (Option Word))
  | stub (name : String)

namespace Request

def act : Request → RunM Word
  | compile source => compiling (Engine.compile source)
  | eval source => Engine.eval source
  | call function receiver args => invoke function receiver args
  | miss cache object key update => getPropertySlot cache object key update
  | unit graph kind nested => compiling (compileUnit graph kind nested)
  | stub name => compiling (do return (← getStub name).function)

def planned : (request : Request) → Planned request.act
  | compile source => (plannedCompile source).compiling
  | eval source => plannedEval source
  | call function receiver args => plannedInvoke function receiver args
  | miss cache object key update => plannedGetPropertySlot cache object key update
  | unit graph kind nested => (plannedCompileUnit graph kind nested).compiling
  | stub name => ((plannedGetStub name).bind fun _ => .pure _).compiling

/-- The plan that a request is carried out by. -/
def plan (request : Request) : Plan RunError Word := request.planned.plan

end Request

/-- Nothing is being compiled. -/
structure Idle (e : Engine) : Prop where
  contexts : e.contexts.frames = []
  inProgress : ∀ name, name ∉ e.stubs.inProgress

def Request.fails (request : Request) (e : Engine) : Bool :=
  match request.act e with
  | .ok _ _ => false
  | .error _ _ => true

end ScriptEngine.Engine
