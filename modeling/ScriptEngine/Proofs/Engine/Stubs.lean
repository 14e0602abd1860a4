import ScriptEngine.Proofs.Engine.Needs

/-!
The library of stubs over the life of an engine. Whatever the engine is asked, only requests for stubs
change the library, and they only add to it: a stub that was compiled once is answered from then on, also
if it was compiled for something that failed. A request for a stub that needs a missing stub or itself
fails, and can be made again.
-/

namespace ScriptEngine.Engine

open State Relation

variable {ε α : Type} {e e' : Engine}

/-! ### Everything else leaves the library alone -/

section

theorem remembering_compileUnit (graph : Graph) (kind : UnitKind) (nested : Array (Option Word)) :
    Remembering (compileUnit graph kind nested) := grounding_compileUnit.remembering graph kind nested

theorem remembering_getStub (name : String) : Remembering (getStub name) :=
  Remembering.get.bind fun _ => remembering_stub (grounding_compileNested _) name

theorem remembering_emitEvent (event : Event) :
    Remembering (emitEvent event : EStateM ε Engine Unit) := .update fun _ => rfl

theorem remembering_askHeap (wrap : HeapError → ε) (question : Heap → Except HeapError α) :
    Remembering (askHeap wrap question) := by
  refine .of_stubs fun e => ?_
  unfold finalState askHeap
  cases question e.heap <;> rfl

theorem remembering_compileScript (graphs : Array Graph) : Remembering (compileScript graphs) := by
  refine .withScope _ (.bind (.foldlM (fun codes entry => ?_) _) fun codes => ?_)
  · exact (remembering_compileUnit _ _ _).bind fun _ => .pure _
  · split
    · exact .pure _
    · exact .throw _

theorem remembering_compile (source : String) : Remembering (compile source) := by
  unfold compile
  split
  · exact .throw _
  · exact (remembering_compileScript _).bind fun _ => (Remembering.onHeap _ _).bind fun _ =>
      (Remembering.onHeap _ _).bind fun _ => .pure _

theorem remembering_regenerate (cache : InlineCache) : Remembering (regenerate cache) :=
  .withScope _ ((remembering_buildGraph _).bind fun _ => (remembering_compileUnit _ _ _).bind fun _ =>
    (remembering_askHeap _ _).bind fun _ => (remembering_askHeap _ _).bind fun _ =>
      (remembering_askHeap _ _).bind fun _ => (Remembering.onHeap _ _).bind fun _ => .onHeap _ _)

theorem remembering_recordProbe (function shape key : Word) (exact : Bool) (slot : Nat) :
    Remembering (recordProbe function shape key exact slot) := by
  have hcache : Remembering (cacheOf function) := by
    refine .bind .get fun e => ?_
    split
    · exact .pure _
    · exact .throw _
  have hkeep : ∀ cache : InlineCache, Remembering (modify fun e =>
      { e with caches := e.caches.insert function cache } : CompileM Unit) := fun _ =>
    .update fun _ => rfl
  exact hcache.bind fun _ => .ite (.pure _) (.bind .get fun _ =>
    .ite ((remembering_emitEvent _).bind fun _ => hkeep _)
      (.ite ((remembering_regenerate _).bind fun _ => hkeep _) (.pure _)))

theorem remembering_getPropertySlot (function object key update : Word) :
    Remembering (getPropertySlot function object key update) := by
  refine .bind .get fun _ => .ite (.pure _) ((Remembering.onHeap _ _).bind fun stored =>
    .bind .get fun e => ?_)
  simp only
  split
  · split
    · exact .pure _
    · rename_i slot _ _ shape _
      intro e
      have hrecord := remembering_recordProbe function shape stored (key == stored) slot e
      unfold finalState at hrecord ⊢
      simp only [EStateM.run]
      cases hrun : recordProbe function shape stored (key == stored) slot e <;>
        simpa only [hrun] using hrecord
  · refine .ite ((Remembering.onHeap _ _).bind fun slot => ?_) (.pure _)
    split
    · exact .pure _
    · exact .pure _

end

/-! ### Callbacks and execution -/

section

theorem remembering_recordError (err : RunError) : Remembering (recordError err) :=
  .update fun _ => rfl

theorem remembering_argument (args : List Word) (index : Nat) : Remembering (argument args index) := by
  unfold argument
  split
  · exact .pure _
  · exact .throw _

theorem remembering_heapStep (act : HeapM α) : Remembering (heapStep act) := .onHeap _ _

theorem remembering_answer (question : Heap → Bool) : Remembering (answer question) :=
  .bind .get fun _ => .pure _

theorem remembering_arithmetic (op : Double → Double → Double) (left right : Word) :
    Remembering (arithmetic op left right) := .bind .get fun _ => .onHeap _ _

theorem remembering_instanceOf (object constructor : Word) :
    Remembering (instanceOf object constructor) := by
  refine (remembering_heapStep _).bind fun result => ?_
  split
  · exact .bind .get fun _ => .pure _
  · exact .bind .get fun _ => .throw _

theorem remembering_allocSlow (shape size : Word) : Remembering (allocSlow shape size) := by
  unfold allocSlow
  split
  · exact .ite (remembering_heapStep _) (.throw _)
  · exact .throw _

theorem remembering_typeError (callee : Word) : Remembering (typeError callee) :=
  .bind .get fun _ => (remembering_emitEvent _).bind fun _ => (remembering_recordError _).bind fun _ =>
    (remembering_getStub _).compiling.bind fun _ => .pure _

theorem remembering_log (value : Word) : Remembering (log value) := by
  have hend : Remembering (do return (← get).heap.undefined : RunM Word) := .bind .get fun _ => .pure _
  exact .bind .get fun _ => .bind .get fun _ => .ite (.bind (.update fun _ => rfl) fun _ => hend)
    ((remembering_emitEvent _).bind fun _ => hend)

theorem remembering_callback (name : String) (args : List Word) :
    Remembering (callback name args) := by
  have harg := remembering_argument args
  unfold callback
  simp only
  split
  · exact (harg 0).bind fun _ => (harg 1).bind fun _ => remembering_heapStep _
  · exact (harg 0).bind fun _ => (harg 1).bind fun _ => (harg 2).bind fun _ =>
      (remembering_heapStep _).bind fun _ => .pure _
  · exact (harg 0).bind fun _ => (harg 1).bind fun _ => (remembering_heapStep _).bind fun _ =>
      .bind .get fun _ => .pure _
  · split
    · exact remembering_getPropertySlot _ _ _ _
    · exact .throw _
  · exact (harg 0).bind fun _ => (harg 1).bind fun _ => remembering_allocSlow _ _
  · exact (harg 0).bind fun _ => remembering_answer _
  · exact (harg 0).bind fun _ => .bind .get fun _ => remembering_heapStep _
  · exact (harg 0).bind fun _ => remembering_typeError _
  · exact (harg 0).bind fun _ => remembering_log _
  · refine (harg 0).bind fun left => (harg 1).bind fun right => ?_
    split
    · exact .bind .get fun _ => .ite (remembering_heapStep _) (remembering_arithmetic _ _ _)
    · exact remembering_arithmetic _ _ _
    · exact remembering_arithmetic _ _ _
    iterate 4 exact remembering_answer _
    · exact remembering_instanceOf _ _
    · exact .throw _

theorem remembering_callHost (args : List Word) : Remembering (callHost args) := by
  have hdispatch : Remembering (dispatch args) := by
    unfold dispatch
    split
    · exact .throw _
    · split
      · exact .throw _
      · refine .ite (.throw _) ?_
        split
        · exact .throw _
        · exact (remembering_emitEvent _).bind fun _ => remembering_callback _ _
  intro e
  have hrun := hdispatch e
  have hrecord : ∀ err, Remembering (do recordError err; return (← get).heap.undefined : RunM Word) :=
    fun _ => (remembering_recordError _).bind fun _ => .bind .get fun _ => .pure _
  cases hcase : dispatch args e with
  | ok value t =>
    have hresult : callHost args e = .ok value t := by simp only [callHost, EStateM.run, hcase]
    rw [finalState_ok hresult]
    exact finalState_ok hcase ▸ hrun
  | error err t =>
    have hresult : finalState (callHost args) e =
        finalState (do recordError err; return (← get).heap.undefined : RunM Word) t := by
      simp only [finalState, callHost, EStateM.run, hcase]
    rw [hresult]
    exact (finalState_error hcase ▸ hrun).trans (hrecord err t)

namespace Machine

variable {call : Caller}

theorem remembering_load (address : Nat) : Remembering (load address) := .bind .get fun _ => .pure _

theorem remembering_trap : Remembering trap :=
  .bind .get fun _ => .ite (.bind (.throw _) fun _ => .update fun _ => rfl) (.update fun _ => rfl)

theorem remembering_changeMemory (f : Memory → Memory) : Remembering (changeMemory f) :=
  .update fun _ => rfl

theorem remembering_callFunction (hc : ∀ entry self, Remembering (call entry self)) (target : Word)
    (activation : Activation) : Remembering (callFunction call target activation) :=
  (remembering_load _).bind fun _ => (remembering_load _).bind fun _ => hc _ _

theorem remembering_perform (hc : ∀ entry self, Remembering (call entry self)) (self : Activation)
    (regs : Registers) (action : Action) : Remembering (perform call self regs action) := by
  unfold perform
  split
  · exact .pure _
  · exact .bind .get fun _ => .pure _
  · exact .pure _
  · exact .pure _
  · exact remembering_load _
  · exact remembering_load _
  · exact .bind .get fun _ => .pure _
  · exact .bind .get fun _ => .pure _
  iterate 8 exact .pure _
  · exact remembering_callFunction hc _ _
  · exact remembering_callFunction hc _ _
  · exact remembering_trap.bind fun _ => .pure _
  iterate 3 exact (remembering_changeMemory _).bind fun _ => .pure _
  · exact .bind (.update fun _ => rfl) fun _ => .pure _

theorem remembering_runBody (hc : ∀ entry self, Remembering (call entry self)) (self : Activation)
    (body : List MachineInstr) (regs : Registers) : Remembering (runBody call self body regs) := by
  induction body generalizing regs with
  | nil => exact .pure _
  | cons i rest ih =>
    refine (remembering_perform hc self regs i.action).bind fun result => ?_
    split
    · exact ih _
    · exact ih _

theorem remembering_runFrom (hc : ∀ entry self, Remembering (call entry self)) (program : Program)
    (self : Activation) (jumps : Nat) (id : BlockId) (regs : Registers) :
    Remembering (runFrom call program self jumps id regs) := by
  induction jumps generalizing id regs with
  | zero => exact .throw _
  | succ jumps ih =>
    unfold runFrom
    split
    · exact .throw _
    · refine (remembering_runBody hc self _ regs).bind fun regs => ?_
      split
      · exact .pure _
      · exact remembering_callFunction hc _ _
      · exact ih _ _
      · exact ih _ _

theorem remembering_enter (depth : Nat) (entry : Nat) (self : Activation) :
    Remembering (enter depth entry self) := by
  induction depth generalizing entry self with
  | zero => exact .throw _
  | succ depth ih =>
    refine .bind .get fun e => ?_
    split
    · exact .throw _
    · exact remembering_callHost _
    · exact .ite (remembering_trap.bind fun _ => remembering_runFrom ih _ _ _ _ _)
        (remembering_runFrom ih _ _ _ _ _)

end Machine

theorem remembering_invoke (function receiver : Word) (args : List Word) :
    Remembering (invoke function receiver args) := by
  refine (remembering_askHeap _ _).bind fun _ => (remembering_askHeap _ _).bind fun _ =>
    .bind (.update fun _ => rfl) fun _ => (Machine.remembering_enter _ _ _).bind fun result =>
      .bind .get fun e => ?_
  split
  · exact .bind (.update fun _ => rfl) fun _ => .throw _
  · exact .pure _

/-- Requests only add to the library. -/
theorem Request.remembering (request : Request) : Remembering request.act := by
  cases request with
  | compile source => exact (remembering_compile source).compiling
  | eval source =>
    exact (remembering_compile source).compiling.bind fun _ => .bind .get fun _ =>
      remembering_invoke _ _ _
  | call function receiver args => exact remembering_invoke function receiver args
  | miss cache object key update => exact remembering_getPropertySlot cache object key update
  | unit graph kind nested => exact (remembering_compileUnit graph kind nested).compiling
  | stub name => exact ((remembering_getStub name).bind fun _ => .pure _).compiling

end

/-! ### The life of an engine -/

/-- Engines as they come about: from one that has compiled no stub, by requests and by anything else
that does not touch the stubs. -/
inductive Lived : Engine → Prop
  | start {e : Engine} (fresh : ∀ name, e.stubs.compiled? name = none)
    (idle : ∀ name, name ∉ e.stubs.inProgress) : Lived e
  | request {e : Engine} (h : Lived e) (request : Request) : Lived (finalState request.act e)
  | other {e e' : Engine} (h : Lived e) (same : e'.stubs = e.stubs) : Lived e'

theorem Lived.settled (h : Lived e) :
    e.stubs.Settled ∧ ∀ name, name ∉ e.stubs.inProgress := by
  induction h with
  | start fresh idle => exact ⟨fun name s hs => by simp [fresh] at hs, idle⟩
  | @request e _ request ih =>
    have hgrows := request.remembering e
    exact ⟨hgrows.settled ih.1, fun name hmem => ih.2 name ((hgrows.inProgress name).mp hmem)⟩
  | other _ same ih => rwa [same]

theorem Lived.bind {β : Type} {x : EStateM ε Engine α} {f : α → EStateM ε Engine β}
    (hx : Lived (finalState x e)) (hf : ∀ a t, Lived t → Lived (finalState (f a) t)) :
    Lived (finalState (x >>= f) e) :=
  finalState_bind (fun a t hok => hf a t (finalState_ok hok ▸ hx))
    fun _ _ herror => finalState_error herror ▸ hx

theorem Lived.getStub (h : Lived e) (name : String) : Lived (finalState (getStub name) e) := by
  have hrun : finalState (Request.stub name).act e = finalState (Engine.getStub name) e := by
    unfold Request.act
    rw [finalState_compiling]
    refine finalState_bind (P := fun t => t = finalState (Engine.getStub name) e) ?_ ?_
    · intro s t hok
      exact (finalState_ok hok).symm
    · intro err t herror
      exact (finalState_error herror).symm
  exact hrun ▸ h.request (.stub name)

theorem Lived.onHeap (h : Lived e) (wrap : HeapError → ε) (act : HeapM α) :
    Lived (finalState (onHeap wrap act) e) :=
  h.other (by rw [finalState_onHeap])

theorem Lived.discard {x : EStateM ε Engine α} (h : Lived (finalState x e)) :
    Lived (finalState (discard x) e) := by
  change Lived (finalState (x >>= fun _ => pure PUnit.unit) e)
  exact h.bind fun _ _ h => h

theorem Lived.installBuiltins (h : Lived e) : Lived (finalState installBuiltins e) :=
  (h.getStub "noop").discard.bind fun _ _ h => (h.getStub "log").bind fun _ _ h =>
    (h.onHeap _ _).bind fun _ t h => by
      rw [finalState_get_bind]
      exact h.onHeap _ _

/-- New engines have a life of this kind. -/
theorem lived_create {config : Config} (h : create config = .ok e) : Lived e := by
  unfold create at h
  cases hheap : Heap.create config.heap with
  | error err =>
    rw [hheap] at h
    cases h
  | ok heap =>
    simp only [hheap, pure_bind] at h
    have hstart : Lived { config, heap, stubs := StubLibrary.standard } :=
      .start (fun _ => Std.TreeMap.getElem?_emptyc) fun _ => Std.TreeSet.not_mem_emptyc
    split at h
    · rename_i u t hact
      cases h
      rw [← finalState_ok hact]
      refine (hstart.onHeap _ _).bind fun global t ht => (ht.onHeap _ _).bind fun _ t ht =>
        Lived.bind ?_ fun _ t ht => ht.installBuiltins
      exact ht.other rfl
    · cases h

/-- When a unit is compiled from `e`, the word of `c` is asked for in state `t`. -/
def Asks (graph : Graph) (kind : UnitKind) (nested : Array (Option Word)) (e : Engine) (c : Const)
    (t : Engine) : Prop :=
  ∃ lowered start, Begins graph kind e lowered start ∧
    (emission lowered start.config.trapOnEntry).Visits (resolve compileUnit nested) start c t

/-- The unit goes on from where the generation of its code ends. -/
theorem grows_of_begins {graph lowered : Graph} {kind : UnitKind} {nested : Array (Option Word)}
    {start : Engine} (h : Begins graph kind e lowered start) :
    (finalState ((emission lowered start.config.trapOnEntry).run (resolve compileUnit nested))
      start).stubs.Grows (finalState (compileUnit graph kind nested) e).stubs := by
  have hunit : finalState (compileUnit graph kind nested) e =
      finalState (withContext { unit := graph.name, kind }
        (compileInside compileUnit graph kind nested (e.contexts.current?.map (·.unit)))) e := by
    unfold finalState
    rw [← compileStep_apply, ← compileUnit_eq_compileStep]
  rw [hunit, stubs_withContext]
  unfold compileInside
  rw [finalState_get_bind]
  refine finalState_bind (P := fun t : Engine => StubLibrary.Grows _ t.stubs) ?_ ?_
  · intro lowered' t hprepare
    obtain ⟨rfl, rfl⟩ : lowered' = lowered ∧ t = start := by
      cases hprepare.symm.trans h
      exact ⟨rfl, rfl⟩
    rw [finalState_get_bind]
    refine finalState_bind (P := fun t : Engine => StubLibrary.Grows _ t.stubs) ?_ ?_
    · intro emitted t' hemit
      rw [finalState_ok hemit]
      exact remembering_conclude _ _ _ _ _ _ t'
    · intro err t' hemit
      rw [finalState_error hemit]
      exact .refl _
  · intro err t hprepare
    cases hprepare.symm.trans h

/-- A stub that a unit asked for with success is kept, whatever becomes of the unit. -/
theorem compiled_of_asks {graph : Graph} {kind : UnitKind} {nested : Array (Option Word)}
    {name : String} {s : Stub} {t t' : Engine} (h : Asks graph kind nested e (.stub name) t)
    (hstub : getStub name t = .ok s t') :
    (finalState (compileUnit graph kind nested) e).stubs.compiled? name = some s := by
  obtain ⟨lowered, start, hbegins, hvisits⟩ := h
  rw [getStub_eq] at hstub
  have hresolve : resolve compileUnit nested (.stub name) t = .ok s.function t' := bind_of_ok hstub
  have hrest := (hvisits.leaves (R := fun e e' => e.stubs.Grows e'.stubs) (fun _ => .refl _)
    (fun h h' => h.trans h') fun c => remembering_resolve grounding_compileUnit nested c).2
  rw [finalState_ok hresolve] at hrest
  exact (hrest.trans (grows_of_begins hbegins)).kept name s (compiled_of_stub hstub)

end ScriptEngine.Engine

namespace ScriptEngine.StubLibrary

open Relation

/-- Whether nothing that a stub needs, directly or not, is missing or needs itself. -/
def Available (l : StubLibrary) (name : String) : Prop :=
  ∀ need, ReflTransGen l.Needs name need → need ∈ l.declared ∧ ¬ TransGen l.Needs need need

theorem Grounded.available {l : StubLibrary} {name : String} (h : l.Grounded name) :
    l.Available name := fun _ hreach => ⟨(h.reached hreach).declared, (h.reached hreach).acyclic⟩

end ScriptEngine.StubLibrary

namespace ScriptEngine.Engine

open State

/-- A request that fails leaves a stub unmarked and not compiled. -/
theorem free_of_failed {e e' : Engine} {name : String} {err : CompileError}
    (hfree : name ∉ e.stubs.inProgress) (h : getStub name e = .error err e') :
    e'.stubs.compiled? name = none ∧ name ∉ e'.stubs.inProgress := by
  have hgrows := remembering_getStub name e
  rw [finalState_error h] at hgrows
  refine ⟨?_, fun hmem => hfree ((hgrows.inProgress name).mp hmem)⟩
  rw [getStub_eq] at h
  cases hnew : e.stubs.compiled? name with
  | some s =>
    rw [stub_of_compiled hnew] at h
    cases h
  | none =>
    cases hdeclared : e.stubs.declared[name]? with
    | none =>
      rw [stub_of_undeclared hnew hdeclared] at h
      cases h
      exact hnew
    | some source =>
      rw [stub_of_declared hnew hdeclared] at h
      cases hbuild : buildStub compileUnit name source (e.marked name) with
      | ok s t =>
        rw [marking_ok hfree hbuild] at h
        cases h
      | error err t =>
        rw [marking_error hfree hbuild] at h
        cases h
        have hinside := remembering_buildStub grounding_compileUnit name source (e.marked name)
        rw [finalState_error hbuild] at hinside
        exact (hinside.busy name (Std.TreeSet.mem_insert.mpr (.inl Std.ReflCmp.compare_self))).trans
          hnew

/-- Compilation of units calls itself for the stubs and inline caches that a unit needs, and gets to an
end: the calls are never nested more deeply than a bound, so that it does not matter what would happen
at the bottom. In the life of an engine, a request for a stub and the compilation of a unit succeed only
if all that they need is declared and does not need itself; otherwise they fail. What was compiled is
kept and answered from then on, also if it was compiled for a unit that fails. A stub for which a request
failed is neither kept nor marked, so the next request for it starts anew. -/
theorem stubs_compiled_once :
    (compileUnit = compileStep compileUnit ∧
      (∀ name e, getStub name e = stub compileUnit name e) ∧
      (∀ kind e, createCache kind e = newCache compileUnit kind e) ∧
      ∀ bottom graph kind nested e,
        compileStep^[maxNesting e] bottom graph kind nested e = compileUnit graph kind nested e) ∧
    (∀ e, Lived e → ∀ name,
      (∀ s e', getStub name e = .ok s e' →
        e.stubs.Available name ∧ e'.stubs.compiled? name = some s) ∧
      (¬ e.stubs.Available name → ∃ err e', getStub name e = .error err e') ∧
      (∀ err e', getStub name e = .error err e' →
        e'.stubs.compiled? name = none ∧ name ∉ e'.stubs.inProgress) ∧
      ∀ graph kind nested w e', graph.NeedsStub name →
        compileUnit graph kind nested e = .ok w e' → e.stubs.Available name) ∧
    ∀ e name s,
      (e.stubs.compiled? name = some s → getStub name e = .ok s e ∧
        ∀ request : Request, (finalState request.act e).stubs.compiled? name = some s) ∧
      ∀ graph kind nested t t', Asks graph kind nested e (.stub name) t →
        getStub name t = .ok s t' →
        (finalState (compileUnit graph kind nested) e).stubs.compiled? name = some s := by
  have hground : ∀ e, Lived e → ∀ name s e', getStub name e = .ok s e' → e.stubs.Available name :=
    fun e he name s e' h =>
      (grounded_of_stub grounding_compileUnit he.settled.1 (getStub_eq name ▸ h)).available
  refine ⟨⟨compileUnit_eq_compileStep, fun name e => getStub_eq name, fun kind e => createCache_eq kind,
    ?_⟩, fun e he name => ⟨?_, ?_, ?_, ?_⟩, fun e name s => ⟨?_, ?_⟩⟩
  · intro bottom graph kind nested e
    have hfree := free_le e.stubs
    rw [compileUnit_apply]
    exact (nested_irrelevant bottom (.inl (by unfold maxNesting; omega))).symm
  · intro s e' h
    exact ⟨hground e he name s e' h, compiled_of_stub (getStub_eq name ▸ h)⟩
  · intro hnot
    cases h : getStub name e with
    | ok s e' => exact absurd (hground e he name s e' h) hnot
    | error err e' => exact ⟨err, e', rfl⟩
  · intro err e' h
    exact free_of_failed (he.settled.2 name) h
  · intro graph kind nested w e' hneed h
    exact (grounding_compileUnit.grounds h he.settled.1 name hneed).available
  · intro h
    exact ⟨(getStub_eq name).trans (stub_of_compiled h),
      fun request => (request.remembering e).kept name s h⟩
  · intro graph kind nested t t' hasks hstub
    exact compiled_of_asks hasks hstub

/-- An engine with a stub that needs a good stub before a missing one. -/
def shelf : Engine :=
  { heap := (Heap.create {}).toOption.getD {}
    stubs := { declared := .ofList [
      ("good", StubSource.body do discard (Builder.ret (← Builder.literal .undefined))),
      ("bad", StubSource.body do
        discard (Builder.callStub "good" [])
        discard (Builder.ret (← Builder.callStub "missing" [])))] } }

/-- The request for the bad stub fails, and the good one is there after it, for good. -/
theorem shelf_keeps_good :
    Lived shelf ∧ (Request.stub "bad").fails shelf = true ∧
      ∃ s, getStub "good" (finalState (Request.stub "bad").act shelf) =
        .ok s (finalState (Request.stub "bad").act shelf) ∧
        shelf.stubs.Available "good" := by
  have hlived : Lived shelf :=
    .start (fun _ => Std.TreeMap.getElem?_emptyc) fun _ => Std.TreeSet.not_mem_emptyc
  have hbad : (Request.stub "bad").fails shelf = true := by decide +kernel
  have hgood : ((finalState (Request.stub "bad").act shelf).stubs.compiled? "good").isSome = true := by
    decide +kernel
  obtain ⟨s, hs⟩ := Option.isSome_iff_exists.mp hgood
  obtain ⟨-, hrequests, hkept⟩ := stubs_compiled_once
  have hanswer := ((hkept (finalState (Request.stub "bad").act shelf) "good" s).1 hs).1
  have havailable := ((hrequests _ (hlived.request (.stub "bad")) "good").1 _ _ hanswer).1
  refine ⟨hlived, hbad, s, hanswer, ?_⟩
  have hdeclared := ((Request.stub "bad").remembering shelf).declared
  unfold StubLibrary.Available StubLibrary.Needs at havailable ⊢
  rwa [hdeclared] at havailable

end ScriptEngine.Engine
