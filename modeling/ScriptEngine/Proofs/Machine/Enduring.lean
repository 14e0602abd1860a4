import ScriptEngine.Engine
import ScriptEngine.Proofs.Heap.Spreading

/-!
What execution keeps of a heap, whatever becomes of the run. A relation of heaps that is kept by the heap
operations of callbacks and by every change of memory holds from the start of a run to its end, also where
the run makes no sense. So it is for the addresses that were given out.
-/

namespace ScriptEngine.Engine

open State

/-- A relation of heaps that everything keeps that execution does to a heap. -/
structure Enduring (K : Heap → Heap → Prop) : Prop extends Lasting K where
  memory : ∀ (h : Heap) (memory : Memory), K h { h with memory }
  top : ∀ (h : Heap) (top : Nat), K h { h with young.cursor.top := top }
  allocYoung : ∀ shape size h, K h (finalState (Heap.allocYoung shape size) h)
  propertyKey : ∀ object key h, K h (finalState (Heap.propertyKey object key) h)
  lookupSlot : ∀ object key update h, K h (finalState (Heap.lookupSlot object key update) h)
  getProperty : ∀ object key h, K h (finalState (Heap.getProperty object key) h)
  setProperty : ∀ object key value h, K h (finalState (Heap.setProperty object key value) h)
  deleteProperty : ∀ object key h, K h (finalState (Heap.deleteProperty object key) h)
  instanceOf : ∀ object constructor h, K h (finalState (Heap.instanceOf object constructor) h)
  installEntry : ∀ code entry length h, K h (finalState (Heap.installEntry code entry length) h)
  modifyRecord : ∀ code f h, K h (finalState (Heap.modifyRecord code f) h)

/-- Execution keeps what the steps of heap operations keep, if it does not depend on how far a space is used. -/
theorem enduring_of_stable {K : Heap → Heap → Prop} (stable : Heap.Stable K)
    (top : ∀ (h : Heap) (top : Nat), K h { h with young.cursor.top := top }) : Enduring K where
  toLasting := stable.lasting
  memory := stable.memory
  top := top
  allocYoung shape size := Heap.gradual_allocYoung shape size K stable
  propertyKey object key := Heap.gradual_propertyKey object key K stable
  lookupSlot object key update := Heap.gradual_lookupSlot object key update K stable
  getProperty object key := Heap.gradual_getProperty object key K stable
  setProperty object key value := Heap.gradual_setProperty object key value K stable
  deleteProperty object key := Heap.gradual_deleteProperty object key K stable
  instanceOf object constructor := Heap.gradual_instanceOf object constructor K stable
  installEntry code entry length := Heap.gradual_installEntry code entry length K stable
  modifyRecord code f := Heap.gradual_modifyRecord code f K stable

/-- Execution gives no addresses back. -/
theorem enduring_spreads : Enduring Heap.Spreads :=
  enduring_of_stable Heap.stable_spreads fun _ _ => ⟨le_rfl, rfl, rfl, rfl, rfl⟩

namespace Enduring

variable {ε α : Type} {K : Heap → Heap → Prop} (hK : Enduring K)

include hK

/-! ### Compilation from callbacks -/

omit hK in
theorem compiling {act : CompileM α} (h : Keeping K act) : Keeping K (compiling act) := by
  intro e
  rw [finalState_compiling]
  exact h e

theorem askHeap (wrap : HeapError → ε) (question : Heap → Except HeapError α) : Keeping K (askHeap wrap question) := by
  refine hK.of_heap fun e => ?_
  unfold finalState Engine.askHeap
  cases question e.heap <;> rfl

theorem emitEvent (event : Event) : Keeping K (emitEvent event : EStateM ε Engine Unit) := hK.update fun _ => rfl

theorem compileUnit (graph : Graph) (kind : UnitKind) (nested : Array (Option Word)) :
    Keeping K (compileUnit graph kind nested) := hK.bind hK.get fun _ => hK.compileNested _ _ _ _

theorem getStub (name : String) : Keeping K (getStub name) :=
  hK.bind hK.get fun _ => hK.stub (hK.compileNested _) name

theorem regenerate (cache : InlineCache) : Keeping K (regenerate cache) :=
  hK.withScope _ (hK.bind (hK.buildGraph _) fun _ => hK.bind (hK.compileUnit _ _ _) fun _ =>
    hK.bind (hK.askHeap _ _) fun _ => hK.bind (hK.askHeap _ _) fun _ => hK.bind (hK.askHeap _ _) fun _ =>
      hK.bind (Lasting.onHeap (hK.installEntry _ _ _)) fun _ => Lasting.onHeap (hK.modifyRecord _ _))

theorem recordProbe (function shape key : Word) (exact : Bool) (slot : Nat) :
    Keeping K (recordProbe function shape key exact slot) := by
  have hcache : Keeping K (cacheOf function) := by
    refine hK.bind hK.get fun e => ?_
    split
    · exact hK.pure _
    · exact hK.throw _
  have hkeep : ∀ cache : InlineCache, Keeping K (modify fun e =>
      { e with caches := e.caches.insert function cache } : CompileM Unit) := fun _ => hK.update fun _ => rfl
  exact hK.bind hcache fun _ => Lasting.ite (hK.pure _) (hK.bind hK.get fun _ =>
    Lasting.ite (hK.bind (hK.emitEvent _) fun _ => hkeep _)
      (Lasting.ite (hK.bind (hK.regenerate _) fun _ => hkeep _) (hK.pure _)))

theorem getPropertySlot (function object key update : Word) :
    Keeping K (getPropertySlot function object key update) := by
  refine hK.bind hK.get fun _ => Lasting.ite (hK.pure _) (hK.bind (Lasting.onHeap (hK.propertyKey _ _)) fun stored =>
    hK.bind hK.get fun e => ?_)
  simp only
  split
  · split
    · exact hK.pure _
    · rename_i slot _ _ shape _
      intro e
      have hrecord := hK.recordProbe function shape stored (key == stored) slot e
      unfold finalState at hrecord ⊢
      simp only [EStateM.run]
      cases hrun : Engine.recordProbe function shape stored (key == stored) slot e <;>
        simpa only [hrun] using hrecord
  · refine Lasting.ite (hK.bind (Lasting.onHeap (hK.lookupSlot _ _ _)) fun slot => ?_) (hK.pure _)
    split <;> exact hK.pure _

/-! ### Callbacks -/

theorem recordError (err : RunError) : Keeping K (recordError err) := hK.update fun _ => rfl

theorem argument (args : List Word) (index : Nat) : Keeping K (argument args index) := by
  unfold Engine.argument
  split
  · exact hK.pure _
  · exact hK.throw _

theorem answer (question : Heap → Bool) : Keeping K (answer question) := hK.bind hK.get fun _ => hK.pure _

theorem arithmetic (op : Double → Double → Double) (left right : Word) : Keeping K (arithmetic op left right) :=
  hK.bind hK.get fun _ => Lasting.onHeap (hK.number _)

theorem callback (name : String) (args : List Word) : Keeping K (callback name args) := by
  have harg := hK.argument args
  unfold Engine.callback
  simp only
  split
  · exact hK.bind (harg 0) fun _ => hK.bind (harg 1) fun _ => Lasting.onHeap (hK.getProperty _ _)
  · exact hK.bind (harg 0) fun _ => hK.bind (harg 1) fun _ => hK.bind (harg 2) fun _ =>
      hK.bind (Lasting.onHeap (hK.setProperty _ _ _)) fun _ => hK.pure _
  · exact hK.bind (harg 0) fun _ => hK.bind (harg 1) fun _ =>
      hK.bind (Lasting.onHeap (hK.deleteProperty _ _)) fun _ => hK.bind hK.get fun _ => hK.pure _
  · split
    · exact hK.getPropertySlot _ _ _ _
    · exact hK.throw _
  · refine hK.bind (harg 0) fun _ => hK.bind (harg 1) fun _ => ?_
    unfold allocSlow
    split
    · exact Lasting.ite (Lasting.onHeap (hK.allocYoung _ _)) (hK.throw _)
    · exact hK.throw _
  · exact hK.bind (harg 0) fun _ => hK.answer _
  · exact hK.bind (harg 0) fun _ => hK.bind hK.get fun _ => Lasting.onHeap (hK.number _)
  · exact hK.bind (harg 0) fun _ => hK.bind hK.get fun _ => hK.bind (hK.emitEvent _) fun _ =>
      hK.bind (hK.recordError _) fun _ => hK.bind (Enduring.compiling (hK.getStub _)) fun _ => hK.pure _
  · have hend : Keeping K (do return (← get).heap.undefined : RunM Word) := hK.bind hK.get fun _ => hK.pure _
    exact hK.bind (harg 0) fun _ => hK.bind hK.get fun _ => hK.bind hK.get fun _ =>
      Lasting.ite (hK.bind (hK.update fun _ => rfl) fun _ => hend) (hK.bind (hK.emitEvent _) fun _ => hend)
  · refine hK.bind (harg 0) fun left => hK.bind (harg 1) fun right => ?_
    split
    · exact hK.bind hK.get fun _ => Lasting.ite (Lasting.onHeap (hK.string _)) (hK.arithmetic _ _ _)
    · exact hK.arithmetic _ _ _
    · exact hK.arithmetic _ _ _
    iterate 4 exact hK.answer _
    · refine hK.bind (Lasting.onHeap (hK.instanceOf _ _)) fun result => ?_
      split
      · exact hK.bind hK.get fun _ => hK.pure _
      · exact hK.bind hK.get fun _ => hK.throw _
    · exact hK.throw _

theorem callHost (args : List Word) : Keeping K (callHost args) := by
  have hdispatch : Keeping K (dispatch args) := by
    unfold dispatch
    split
    · exact hK.throw _
    · split
      · exact hK.throw _
      · refine Lasting.ite (hK.throw _) ?_
        split
        · exact hK.throw _
        · exact hK.bind (hK.emitEvent _) fun _ => hK.callback _ _
  intro e
  have hrun := hdispatch e
  have hrecord : ∀ err, Keeping K (do Engine.recordError err; return (← MonadState.get).heap.undefined : RunM Word) :=
    fun _ => hK.bind (hK.recordError _) fun _ => hK.bind hK.get fun _ => hK.pure _
  cases hcase : dispatch args e with
  | ok value t =>
    have hresult : Engine.callHost args e = .ok value t := by simp only [Engine.callHost, EStateM.run, hcase]
    rw [finalState_ok hresult]
    exact finalState_ok hcase ▸ hrun
  | error err t =>
    have hresult : finalState (Engine.callHost args) e =
        finalState (do Engine.recordError err; return (← MonadState.get).heap.undefined : RunM Word) t := by
      simp only [finalState, Engine.callHost, EStateM.run, hcase]
    rw [hresult]
    exact hK.since_trans (finalState_error hcase ▸ hrun) (hrecord err t)

/-! ### Execution -/

variable {call : Caller}

theorem trap : Keeping K Machine.trap :=
  hK.bind hK.get fun _ => Lasting.ite (hK.bind (hK.throw _) fun _ => hK.update fun _ => rfl) (hK.update fun _ => rfl)

theorem changeMemory (f : Memory → Memory) : Keeping K (Machine.changeMemory f) := fun e =>
  ⟨hK.memory e.heap _, rfl, rfl, fun _ _ hr => hr⟩

theorem callFunction (hc : ∀ entry self, Keeping K (call entry self)) (target : Word) (activation : Activation) :
    Keeping K (Machine.callFunction call target activation) :=
  have hload : ∀ address, Keeping K (Machine.load address) := fun _ => hK.bind hK.get fun _ => hK.pure _
  hK.bind (hload _) fun _ => hK.bind (hload _) fun _ => hc _ _

theorem perform (hc : ∀ entry self, Keeping K (call entry self)) (self : Activation) (regs : Registers)
    (action : Action) : Keeping K (Machine.perform call self regs action) := by
  have hload : ∀ address, Keeping K (Machine.load address) := fun _ => hK.bind hK.get fun _ => hK.pure _
  unfold Machine.perform
  split
  · exact hK.pure _
  · exact hK.bind hK.get fun _ => hK.pure _
  · exact hK.pure _
  · exact hK.pure _
  · exact hload _
  · exact hload _
  · exact hK.bind hK.get fun _ => hK.pure _
  · exact hK.bind hK.get fun _ => hK.pure _
  iterate 8 exact hK.pure _
  · exact hK.callFunction hc _ _
  · exact hK.callFunction hc _ _
  · exact hK.bind hK.trap fun _ => hK.pure _
  iterate 3 exact hK.bind (hK.changeMemory _) fun _ => hK.pure _
  · refine hK.bind (fun e => ?_) fun _ => hK.pure _
    exact ⟨hK.top e.heap _, rfl, rfl, fun _ _ hr => hr⟩

theorem runBody (hc : ∀ entry self, Keeping K (call entry self)) (self : Activation) (body : List MachineInstr)
    (regs : Registers) : Keeping K (Machine.runBody call self body regs) := by
  induction body generalizing regs with
  | nil => exact hK.pure _
  | cons i rest ih =>
    refine hK.bind (hK.perform hc self regs i.action) fun result => ?_
    split <;> exact ih _

theorem runFrom (hc : ∀ entry self, Keeping K (call entry self)) (program : Program) (self : Activation) (jumps : Nat)
    (id : BlockId) (regs : Registers) : Keeping K (Machine.runFrom call program self jumps id regs) := by
  induction jumps generalizing id regs with
  | zero => exact hK.throw _
  | succ jumps ih =>
    unfold Machine.runFrom
    split
    · exact hK.throw _
    · refine hK.bind (hK.runBody hc self _ regs) fun regs => ?_
      split
      · exact hK.pure _
      · exact hK.callFunction hc _ _
      · exact ih _ _
      · exact ih _ _

theorem enter (depth : Nat) (entry : Nat) (self : Activation) : Keeping K (Machine.enter depth entry self) := by
  induction depth generalizing entry self with
  | zero => exact hK.throw _
  | succ depth ih =>
    refine hK.bind hK.get fun e => ?_
    split
    · exact hK.throw _
    · exact hK.callHost _
    · exact Lasting.ite (hK.bind hK.trap fun _ => hK.runFrom ih _ _ _ _ _) (hK.runFrom ih _ _ _ _ _)

theorem invoke (function receiver : Word) (args : List Word) : Keeping K (invoke function receiver args) := by
  refine hK.bind (hK.askHeap _ _) fun _ => hK.bind (hK.askHeap _ _) fun _ => hK.bind (hK.update fun _ => rfl) fun _ =>
    hK.bind (hK.enter _ _ _) fun result => hK.bind hK.get fun e => ?_
  split
  · exact hK.bind (hK.update fun _ => rfl) fun _ => hK.throw _
  · exact hK.pure _

end Enduring
end ScriptEngine.Engine
