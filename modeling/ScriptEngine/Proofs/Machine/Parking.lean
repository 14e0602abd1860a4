import ScriptEngine.Proofs.Machine.Coercions

/-!
Errors of a call. The host parks the first error that a callback meets in a cell of the engine, and the call
from outside reports it when it is back. Two hosts without the cell say what that amounts to: one ends the run
at the first failure, the other one goes on whatever fails. A call reports what the first one ends with, and
leaves what the second one leaves.
-/

namespace ScriptEngine.Engine

open State

variable {ε α β : Type} {e t : Engine} {p q : Option RunError}

/-! ### Steps that do not look at the cell -/

def withPending (e : Engine) (p : Option RunError) : Engine := { e with pending := p }

/-- The same outcome, with other contents of the cell. -/
def outcomeWith (p : Option RunError) : EStateM.Result ε Engine α → EStateM.Result ε Engine α
  | .ok a e => .ok a (e.withPending p)
  | .error err e => .error err (e.withPending p)

/-- Steps that neither read nor change the cell. -/
def Blind (x : EStateM ε Engine α) : Prop := ∀ e p, x (e.withPending p) = outcomeWith p (x e)

namespace Blind

variable {x : EStateM ε Engine α} {f : α → EStateM ε Engine β}

theorem ok (h : Blind x) {a : α} (hx : x e = .ok a t) (p : Option RunError) :
    x (e.withPending p) = .ok a (t.withPending p) := by
  rw [h, hx]
  rfl

theorem error (h : Blind x) {err : ε} (hx : x e = .error err t) (p : Option RunError) :
    x (e.withPending p) = .error err (t.withPending p) := by
  rw [h, hx]
  rfl

theorem of_cases (hok : ∀ {e a t}, x e = .ok a t → ∀ p, x (e.withPending p) = .ok a (t.withPending p))
    (herror : ∀ {e err t}, x e = .error err t → ∀ p, x (e.withPending p) = .error err (t.withPending p)) : Blind x := by
  intro e p
  cases hx : x e with
  | ok a t => exact hok hx p
  | error err t => exact herror hx p

theorem pure (a : α) : Blind (Pure.pure a : EStateM ε Engine α) := fun _ _ => rfl

theorem throw (err : ε) : Blind (throw err : EStateM ε Engine α) := fun _ _ => rfl

theorem update {g : Engine → Engine} (h : ∀ e p, g (e.withPending p) = (g e).withPending p) :
    Blind (modify g : EStateM ε Engine Unit) := fun e p => congrArg (EStateM.Result.ok ()) (h e p)

theorem bind (hx : Blind x) (hf : ∀ a, Blind (f a)) : Blind (x >>= f) := by
  intro e p
  cases hcase : x e with
  | ok a t =>
    rw [bind_of_ok hcase, bind_of_ok (hx.ok hcase p)]
    exact hf a t p
  | error err t =>
    rw [bind_of_error hcase, bind_of_error (hx.error hcase p)]
    rfl

theorem get_bind {f : Engine → EStateM ε Engine β} (hsame : ∀ e p, f (e.withPending p) = f e)
    (hf : ∀ e, Blind (f e)) : Blind (get >>= f) := by
  intro e p
  rw [State.get_bind, State.get_bind, hsame]
  exact hf e e p

theorem ite {c : Prop} [Decidable c] {x y : EStateM ε Engine α} (hx : Blind x) (hy : Blind y) :
    Blind (if c then x else y) := by
  split
  · exact hx
  · exact hy

theorem onHeap (wrap : HeapError → ε) (act : HeapM α) : Blind (onHeap wrap act) := by
  intro e p
  unfold Engine.onHeap withPending EStateM.run
  simp only
  cases act e.heap <;> rfl

theorem askHeap (wrap : HeapError → ε) (question : Heap → Except HeapError α) : Blind (askHeap wrap question) := by
  intro e p
  unfold Engine.askHeap withPending
  simp only
  cases question e.heap <;> rfl

theorem liftExcept (x : Except ε α) : Blind (liftExcept x) := by
  cases x with
  | ok a => exact .pure a
  | error err => exact .throw err

theorem seqRight {y : EStateM ε Engine β} (hx : Blind x) (hy : Blind y) : Blind (x *> y) := by
  intro e p
  change EStateM.seqRight x (fun _ => y) (e.withPending p) = outcomeWith p (EStateM.seqRight x (fun _ => y) e)
  unfold EStateM.seqRight
  rw [hx]
  cases x e with
  | ok a t => exact hy t p
  | error err t => rfl

theorem leaveScope (id : Nat) : Blind (leaveScope id : EStateM ε Engine Unit) := by
  intro e p
  unfold Engine.leaveScope withPending
  simp only
  cases e.heap.scopes.leave id <;> rfl

theorem withScope (kind : ScopeKind) {act : EStateM ε Engine α} (h : Blind act) : Blind (withScope kind act) := by
  have henter : Blind (enterScope kind : EStateM ε Engine Nat) := fun _ _ => rfl
  refine henter.bind fun id e p => ?_
  cases hact : act e with
  | ok a t =>
    simp only [EStateM.run, hact, h.ok hact p]
    exact (Blind.leaveScope id).seqRight (.pure a) t p
  | error err t =>
    simp only [EStateM.run, hact, h.error hact p]
    exact (Blind.leaveScope id).seqRight (.throw err) t p

theorem withContext (context : CompileContext) {act : Nat → EStateM ε Engine α} (h : ∀ depth, Blind (act depth)) :
    Blind (withContext context act) := by
  intro e p
  have hleave : ∀ depth, Blind (leaveContext depth : EStateM ε Engine Unit) := fun _ _ _ => rfl
  have hmasked : ∀ contexts : ContextStack, { e.withPending p with contexts } = { e with contexts }.withPending p :=
    fun _ => rfl
  unfold Engine.withContext
  simp only [EStateM.run, hmasked, show (e.withPending p).contexts = e.contexts from rfl]
  cases hact : act (e.contexts.enter context).1 { e with contexts := (e.contexts.enter context).2 } with
  | ok a t =>
    simp only [(h _).ok hact p]
    exact (hleave _).seqRight (.pure a) t p
  | error err t =>
    simp only [(h _).error hact p]
    exact (hleave _).seqRight (.throw err) t p

theorem forM {l : List α} {f : α → EStateM ε Engine PUnit} (hf : ∀ a, Blind (f a)) : Blind (l.forM f) := by
  induction l with
  | nil => exact .pure _
  | cons a l ih => exact (hf a).bind fun _ => ih

theorem foldlM {l : List α} {f : β → α → EStateM ε Engine β} (hf : ∀ b a, Blind (f b a)) (b : β) :
    Blind (l.foldlM f b) := by
  induction l generalizing b with
  | nil => exact .pure b
  | cons a l ih => exact (hf b a).bind ih

theorem marking (name : String) {build : CompileM Stub} (h : Blind build) : Blind (marking name build) := by
  refine get_bind (fun _ _ => rfl) fun e => (liftExcept _).bind fun stubs => .bind (.update fun _ _ => rfl) fun _ e p => ?_
  cases hbuild : build e with
  | ok stub t =>
    simp only [EStateM.run, hbuild, h.ok hbuild p]
    rfl
  | error err t =>
    simp only [EStateM.run, hbuild, h.error hbuild p]
    rfl

theorem compiling {act : CompileM α} (h : Blind act) : Blind (compiling act) :=
  .of_cases (x := Engine.compiling act)
    (fun {e a t} hok p => by
      cases hact : act e with
      | ok a' t' =>
        rw [compiling_ok hact] at hok
        cases hok
        exact compiling_ok (h.ok hact p)
      | error err t' =>
        rw [compiling_error hact] at hok
        cases hok)
    fun {e err t} herror p => by
      cases hact : act e with
      | ok a' t' =>
        rw [compiling_ok hact] at herror
        cases herror
      | error err' t' =>
        rw [compiling_error hact] at herror
        cases herror
        exact compiling_error (h.error hact p)

end Blind

/-! ### Compilation is blind -/

section

variable {compile : UnitCompiler}

/-- Compilers of units that neither read nor change the cell. -/
def BlindUnits (compile : UnitCompiler) : Prop := ∀ graph kind nested, Blind (compile graph kind nested)

theorem blind_emitEvent (event : Event) : Blind (emitEvent event : EStateM ε Engine Unit) := .update fun _ _ => rfl

theorem blind_buildGraph (graph : Except GraphError Graph) : Blind (buildGraph graph) := by
  cases graph with
  | ok g => exact .pure g
  | error e => exact .throw _

theorem blind_buildStub (hc : BlindUnits compile) (name : String) (source : StubSource) :
    Blind (buildStub compile name source) := by
  refine .withScope _ ?_
  cases source with
  | host => exact (Blind.onHeap _ _).bind fun _ => (Blind.onHeap _ _).bind fun _ => .pure _
  | body build =>
    exact (blind_buildGraph _).bind fun _ => (hc _ _ _).bind fun _ => (Blind.onHeap _ _).bind fun _ => .pure _

theorem blind_stub (hc : BlindUnits compile) (name : String) : Blind (stub compile name) := by
  refine .get_bind (fun _ _ => rfl) fun e => ?_
  split
  · exact .pure _
  · exact .get_bind (fun _ _ => rfl) fun _ => (Blind.liftExcept _).bind fun source =>
      .marking name (blind_buildStub hc name source)

theorem blind_newCache (hc : BlindUnits compile) (kind : CacheKind) : Blind (newCache compile kind) :=
  .withScope _ ((blind_buildGraph _).bind fun _ => (hc _ _ _).bind fun _ => (Blind.onHeap _ _).bind fun _ =>
    .bind (.update fun _ _ => rfl) fun _ => .pure _)

theorem blind_resolve (hc : BlindUnits compile) (nested : Array (Option Word)) (c : Const) :
    Blind (resolve compile nested c) := by
  unfold resolve
  split
  · exact .pure _
  · split
    · exact .pure _
    · exact .onHeap _ _
  · exact .onHeap _ _
  · exact .onHeap _ _
  iterate 4 exact .get_bind (fun _ _ => rfl) fun _ => .pure _
  iterate 2 exact .pure _
  · exact (blind_stub hc _).bind fun _ => .pure _
  · exact (Blind.liftExcept _).bind fun _ => .pure _
  · split
    · exact .pure _
    · exact .throw _
  · exact .get_bind (fun _ _ => rfl) fun _ => .pure _
  · exact blind_newCache hc _
  iterate 3 exact .throw _

theorem blind_inquiry {resolve : Const → CompileM Word} (hr : ∀ c, Blind (resolve c)) (q : Inquiry α) :
    Blind (q.run resolve) := by
  induction q with
  | done a => exact .pure a
  | fail err => exact .throw err
  | ask c next ih => exact (hr c).bind ih

theorem blind_prepare (trace : TraceStages) (graph : Graph) (kind : UnitKind) : Blind (prepare trace graph kind) := by
  have hdump : ∀ traced graph stage, Blind (traceDump traced graph kind stage) := fun _ _ _ =>
    .ite (blind_emitEvent _) (.pure _)
  have hlower : Blind (lowerGraph graph) := by
    refine .bind (.forM fun _ => blind_emitEvent _) fun _ => ?_
    split
    · exact .throw _
    · exact .pure _
  exact (hdump _ _ _).bind fun _ => (hdump _ _ _).bind fun _ => hlower.bind fun _ => (hdump _ _ _).bind fun _ => .pure _

theorem blind_conclude (trace : TraceStages) (lowered : Graph) (kind : UnitKind) (depth : Nat) (outer : Option String)
    (emitted : Program × CodeRecord) : Blind (conclude trace lowered kind depth outer emitted) := by
  have hkeep : Blind (do
      let entry := (← get).routines.size
      modify fun e => { e with routines := e.routines.push (.program emitted.1) }
      return entry : CompileM Nat) := .get_bind (fun _ _ => rfl) fun _ => .bind (.update fun _ _ => rfl) fun _ => .pure _
  have hdefine : Blind (defineRoutine emitted.1) := .ite (.bind (.throw _) fun _ => hkeep) hkeep
  have hrest : Blind (do
      let entry ← defineRoutine emitted.1
      emitEvent (.compiled lowered.name kind depth outer lowered.instrs.size)
      Engine.onHeap .heap (Heap.allocCode entry 0 emitted.2) : CompileM Word) :=
    hdefine.bind fun _ => (blind_emitEvent _).bind fun _ => .onHeap _ _
  exact .ite ((blind_emitEvent _).bind fun _ => hrest) hrest

theorem blind_compileNested (nesting : Nat) : BlindUnits (compileNested nesting) := by
  induction nesting with
  | zero => exact fun _ _ _ => .throw _
  | succ nesting ih =>
    rw [compileNested_succ]
    exact fun graph kind nested => .get_bind (fun _ _ => rfl) fun _ => .withContext _ fun _ =>
      .get_bind (fun _ _ => rfl) fun _ => (blind_prepare _ _ _).bind fun _ => .get_bind (fun _ _ => rfl) fun _ =>
        (blind_inquiry (fun c => blind_resolve ih nested c) _).bind fun _ => blind_conclude _ _ _ _ _ _

end

theorem blind_compileUnit : BlindUnits compileUnit := fun _ _ _ =>
  .get_bind (fun _ _ => rfl) fun _ => blind_compileNested _ _ _ _

theorem blind_getStub (name : String) : Blind (getStub name) :=
  .get_bind (fun _ _ => rfl) fun _ => blind_stub (blind_compileNested _) name

theorem blind_compileScript (graphs : Array Graph) : Blind (compileScript graphs) := by
  refine .withScope _ (.bind (.foldlM (fun codes entry => ?_) _) fun codes => ?_)
  · exact (blind_compileUnit _ _ _).bind fun _ => .pure _
  · split
    · exact .pure _
    · exact .throw _

theorem blind_compile (source : String) : Blind (compile source) := by
  unfold compile
  split
  · exact .throw _
  · exact (blind_compileScript _).bind fun _ => (Blind.onHeap _ _).bind fun _ => (Blind.onHeap _ _).bind fun _ => .pure _

theorem blind_recordProbe (function shape key : Word) (exact : Bool) (slot : Nat) :
    Blind (recordProbe function shape key exact slot) := by
  have hcache : Blind (cacheOf function) := by
    refine .get_bind (fun _ _ => rfl) fun e => ?_
    split
    · exact .pure _
    · exact .throw _
  have hkeep : ∀ cache : InlineCache, Blind (modify fun e =>
      { e with caches := e.caches.insert function cache } : CompileM Unit) := fun _ => .update fun _ _ => rfl
  have hregenerate : ∀ cache, Blind (regenerate cache) := fun _ =>
    .withScope _ ((blind_buildGraph _).bind fun _ => (blind_compileUnit _ _ _).bind fun _ =>
      (Blind.askHeap _ _).bind fun _ => (Blind.askHeap _ _).bind fun _ => (Blind.askHeap _ _).bind fun _ =>
        (Blind.onHeap _ _).bind fun _ => .onHeap _ _)
  exact hcache.bind fun _ => .ite (.pure _) (.get_bind (fun _ _ => rfl) fun _ =>
    .ite ((blind_emitEvent _).bind fun _ => hkeep _) (.ite ((hregenerate _).bind fun _ => hkeep _) (.pure _)))

theorem blind_getPropertySlot (function object key update : Word) : Blind (getPropertySlot function object key update) := by
  refine .get_bind (fun _ _ => rfl) fun _ => .ite (.pure _) ((Blind.onHeap _ _).bind fun stored =>
    .get_bind (fun _ _ => rfl) fun e => ?_)
  simp only
  split
  · split
    · exact .pure _
    · rename_i slot _ _ shape _
      have hrecord := blind_recordProbe function shape stored (key == stored) slot
      intro e p
      cases hrun : recordProbe function shape stored (key == stored) slot e with
      | ok u t => simp only [EStateM.run, hrun, hrecord.ok hrun p, outcomeWith]
      | error err t => simp only [EStateM.run, hrun, hrecord.error hrun p, outcomeWith]
  · refine .ite ((Blind.onHeap _ _).bind fun slot => ?_) (.pure _)
    split
    · exact .pure _
    · exact .pure _

/-! ### Callbacks -/

theorem blind_argument (args : List Word) (index : Nat) : Blind (argument args index) := by
  unfold argument
  split
  · exact .pure _
  · exact .throw _

theorem blind_heapStep (act : HeapM α) : Blind (heapStep act) := .onHeap _ _

theorem blind_answer (question : Heap → Bool) : Blind (answer question) :=
  .get_bind (fun _ _ => rfl) fun _ => .pure _

theorem blind_arithmetic (op : Double → Double → Double) (left right : Word) : Blind (arithmetic op left right) :=
  .get_bind (fun _ _ => rfl) fun _ => .onHeap _ _

theorem blind_undefined : Blind (do return (← get).heap.undefined : RunM Word) :=
  .get_bind (fun _ _ => rfl) fun _ => .pure _

theorem blind_instanceOf (object constructor : Word) : Blind (instanceOf object constructor) := by
  refine (blind_heapStep _).bind fun result => ?_
  split
  · exact .get_bind (fun _ _ => rfl) fun _ => .pure _
  · exact .get_bind (fun _ _ => rfl) fun _ => .throw _

theorem blind_allocSlow (shape size : Word) : Blind (allocSlow shape size) := by
  unfold allocSlow
  split
  · exact .ite (blind_heapStep _) (.throw _)
  · exact .throw _

theorem blind_log (value : Word) : Blind (log value) :=
  .get_bind (fun _ _ => rfl) fun _ => .get_bind (fun _ _ => rfl) fun _ =>
    .ite (.bind (.update fun _ _ => rfl) fun _ => blind_undefined) ((blind_emitEvent _).bind fun _ => blind_undefined)

/-- All callbacks are blind but the one for callees that are no functions. -/
theorem blind_callback {name : String} {args : List Word} (h : name = "typeError" → args = []) :
    Blind (callback name args) := by
  have harg := blind_argument args
  unfold callback
  simp only
  split
  · exact (harg 0).bind fun _ => (harg 1).bind fun _ => blind_heapStep _
  · exact (harg 0).bind fun _ => (harg 1).bind fun _ => (harg 2).bind fun _ => (blind_heapStep _).bind fun _ => .pure _
  · exact (harg 0).bind fun _ => (harg 1).bind fun _ => (blind_heapStep _).bind fun _ =>
      .get_bind (fun _ _ => rfl) fun _ => .pure _
  · split
    · exact blind_getPropertySlot _ _ _ _
    · exact .throw _
  · exact (harg 0).bind fun _ => (harg 1).bind fun _ => blind_allocSlow _ _
  · exact (harg 0).bind fun _ => blind_answer _
  · exact (harg 0).bind fun _ => .get_bind (fun _ _ => rfl) fun _ => blind_heapStep _
  · rw [h rfl]
    exact fun _ _ => rfl
  · exact (harg 0).bind fun _ => blind_log _
  · refine (harg 0).bind fun left => (harg 1).bind fun right => ?_
    split
    · exact .get_bind (fun _ _ => rfl) fun _ => .ite (blind_heapStep _) (blind_arithmetic _ _ _)
    · exact blind_arithmetic _ _ _
    · exact blind_arithmetic _ _ _
    iterate 4 exact blind_answer _
    · exact blind_instanceOf _ _
    · exact .throw _

/-! ### Two hosts without the cell -/

/-- The callback that a word names. -/
def calledName? (id : Word) : Option String :=
  match id.toSmi? with
  | some n => if n < 0 then none else callbackNames[n.toNat]?
  | none => none

/-- The callee that is no function, if a call into the host is about one. -/
def nonFunction? : List Word → Option Word
  | id :: callee :: _ => if calledName? id = some "typeError" then some callee else none
  | _ => none

/-- How a call into the host fails: its callback does, or it is about a callee that is no function. -/
def failure? (args : List Word) (e : Engine) : Option RunError :=
  match nonFunction? args with
  | some callee => some (notFunction e.heap callee)
  | none =>
    match dispatch args e with
    | .ok _ _ => none
    | .error err _ => some err

/-- A host at which a run ends with the first failure. -/
def strictHost (args : List Word) : RunM Word := fun e =>
  match failure? args e with
  | some err => .error err e
  | none => dispatch args e

/-- A host that goes on whatever fails: with `undefined` for what a callback does not give, and with a function
that does nothing for a callee that is no function. -/
def lenientHost (noop : Word) (args : List Word) : RunM Word := fun e =>
  match nonFunction? args with
  | some callee => .ok noop { e with
      events := (e.events.push (.callback "typeError" (args.length - 1))).push
        (.warning (e.heap.display callee ++ " is not a function")) }
  | none =>
    match dispatch args e with
    | .ok w t => .ok w t
    | .error _ t => .ok t.heap.undefined t

/-- The machine with another host. -/
def enterVia (host : List Word → RunM Word) : Nat → Caller
  | 0, _, _ => throw .exhausted
  | depth + 1, entry, self => do
    match (← get).routines[entry]? with
    | none => throw .wildJump
    | some .host => host (Machine.hostArguments self)
    | some (.program program) =>
      if program.trapOnEntry then Machine.trap
      Machine.runFrom (enterVia host depth) program self Machine.maxJumps ⟨0⟩ ∅

theorem enterVia_callHost (depth : Nat) : enterVia callHost depth = Machine.enter depth := by
  induction depth with
  | zero => rfl
  | succ depth ih =>
    funext entry self
    unfold enterVia Machine.enter
    generalize enterVia callHost depth = call at ih
    subst ih
    rfl

/-- What a call from outside amounts to: it fails with the first failure, if there is one, and it leaves what the
run leaves that goes on. -/
def settle (noop function receiver : Word) (args : List Word) : RunM Word := do
  let code ← askHeap .heap (·.functionCode function)
  let entry ← askHeap .heap (·.codeEntry code)
  let self : Activation := { callee := function, receiver, args := args.toArray, argc := .ofNat args.length }
  fun e =>
    match enterVia (lenientHost noop) Machine.maxDepth entry self e with
    | .error err t => .error err t
    | .ok w t =>
      match enterVia strictHost Machine.maxDepth entry self e with
      | .ok _ _ => .ok w t
      | .error err _ => .error err t

/-! ### Runs with the cell -/

/-- The function that does nothing is at hand. -/
def HasNoop (noop : Word) (e : Engine) : Prop := ∃ s, e.stubs.compiled? "noop" = some s ∧ s.function = noop

theorem HasNoop.mono {noop : Word} (h : HasNoop noop e) (grows : e.stubs.Grows t.stubs) : HasNoop noop t := by
  obtain ⟨s, hs, hnoop⟩ := h
  exact ⟨s, grows.kept _ _ hs, hnoop⟩

/-- The outcome of a run that stops at the first failure: that of the run that goes on, unless there is one. -/
def Stops (strict : RunM α) (e : Engine) (a : α) (t : Engine) : Option RunError → Prop
  | none => strict e = .ok a t
  | some err => ∃ t', strict e = .error err t'

/-- Where a run that goes on comes to its end, the actual one comes to the same end, and parks the failure at which
the strict one stops, if nothing is parked yet. -/
structure Parks (noop : Word) (strict lenient actual : RunM α) : Prop where
  remembering : Remembering actual
  returns : ∀ {e a t}, HasNoop noop e → lenient e = .ok a t → ∃ failure, Stops strict e a t failure ∧
    ∀ p, actual (e.withPending p) = .ok a (t.withPending (p.or failure))
  breaks : ∀ {e err t}, HasNoop noop e → lenient e = .error err t →
    ∀ p, ∃ q, actual (e.withPending p) = .error err (t.withPending q)

namespace Parks

variable {noop : Word} {strict lenient actual x : RunM α} {fs fl fa f : α → RunM β}

theorem of_blind (h : Blind x) (remembering : Remembering x) : Parks noop x x x where
  remembering := remembering
  returns _ hx := ⟨none, hx, fun p => by rw [Option.or_none]; exact h.ok hx p⟩
  breaks _ hx p := ⟨p, h.error hx p⟩

theorem bind (h : Parks noop strict lenient actual) (hf : ∀ a, Parks noop (fs a) (fl a) (fa a)) :
    Parks noop (strict >>= fs) (lenient >>= fl) (actual >>= fa) where
  remembering := h.remembering.bind fun a => (hf a).remembering
  returns {e b t'} hnoop hrun := by
    obtain ⟨a, t, hfirst, hrest⟩ := bind_eq_ok.mp hrun
    obtain ⟨failure, hstops, hactual⟩ := h.returns hnoop hfirst
    have hnoop' : HasNoop noop t := by
      have hgrows := h.remembering (e.withPending none)
      rw [finalState_ok (hactual none)] at hgrows
      exact hnoop.mono hgrows
    obtain ⟨failure', hstops', hactual'⟩ := (hf a).returns hnoop' hrest
    refine ⟨failure.or failure', ?_, fun p => ?_⟩
    · cases failure with
      | some err =>
        obtain ⟨t'', hstrict⟩ := hstops
        exact ⟨t'', bind_of_error hstrict⟩
      | none =>
        rw [Option.none_or]
        cases failure' with
        | some err =>
          obtain ⟨t'', hstrict⟩ := hstops'
          exact ⟨t'', (bind_of_ok hstops).trans hstrict⟩
        | none => exact (bind_of_ok hstops).trans hstops'
    · rw [bind_of_ok (hactual p), hactual', Option.or_assoc]
  breaks {e err t'} hnoop hrun p := by
    cases hfirst : lenient e with
    | error err' t =>
      rw [bind_of_error hfirst] at hrun
      cases hrun
      obtain ⟨q, hactual⟩ := h.breaks hnoop hfirst p
      exact ⟨q, bind_of_error hactual⟩
    | ok a t =>
      rw [bind_of_ok hfirst] at hrun
      obtain ⟨failure, -, hactual⟩ := h.returns hnoop hfirst
      have hnoop' : HasNoop noop t := by
        have hgrows := h.remembering (e.withPending none)
        rw [finalState_ok (hactual none)] at hgrows
        exact hnoop.mono hgrows
      obtain ⟨q, hactual'⟩ := (hf a).breaks hnoop' hrun (p.or failure)
      exact ⟨q, (bind_of_ok (hactual p)).trans hactual'⟩

theorem ite {c : Prop} [Decidable c] {strict' lenient' actual' : RunM α} (h : Parks noop strict lenient actual)
    (h' : Parks noop strict' lenient' actual') :
    Parks noop (if c then strict else strict') (if c then lenient else lenient') (if c then actual else actual') := by
  split
  · exact h
  · exact h'

theorem pure (a : α) : Parks noop (Pure.pure a) (Pure.pure a) (Pure.pure a) := .of_blind (.pure a) (.pure a)

theorem throw (err : RunError) : Parks noop (throw err : RunM α) (throw err) (throw err) :=
  .of_blind (.throw err) (.throw err)

theorem get_bind {fs fl fa : Engine → RunM β} (hsame : ∀ e p, fa (e.withPending p) = fa e)
    (hf : ∀ e, Parks noop (fs e) (fl e) (fa e)) : Parks noop (get >>= fs) (get >>= fl) (get >>= fa) where
  remembering := Remembering.get.bind fun e => (hf e).remembering
  returns {e b t} hnoop hrun := by
    obtain ⟨failure, hstops, hactual⟩ := (hf e).returns hnoop ((State.get_bind fl).symm.trans hrun)
    refine ⟨failure, ?_, fun p => ?_⟩
    · cases failure with
      | some err => exact hstops
      | none => exact hstops
    · rw [State.get_bind, hsame]
      exact hactual p
  breaks {e err t} hnoop hrun p := by
    obtain ⟨q, hactual⟩ := (hf e).breaks hnoop ((State.get_bind fl).symm.trans hrun) p
    exact ⟨q, by rw [State.get_bind, hsame]; exact hactual⟩

end Parks

variable {noop : Word}

/-! ### The actual host -/

theorem dispatch_called {first : Word} {name : String} (h : calledName? first = some name) (rest : List Word) :
    dispatch (first :: rest) = (do
      emitEvent (.callback name rest.length)
      callback name rest) := by
  unfold calledName? at h
  unfold dispatch
  split at h
  · rename_i n hn
    split at h
    · cases h
    · rename_i hpositive
      simp only [hn, hpositive, if_false, h]
  · cases h

/-- A call into the host that is about no callee does not look at the cell. -/
theorem blind_dispatch {args : List Word} (h : nonFunction? args = none) : Blind (dispatch args) := by
  cases args with
  | nil => exact .throw _
  | cons first rest =>
    cases hname : calledName? first with
    | some name =>
      rw [dispatch_called hname]
      refine (blind_emitEvent _).bind fun _ => blind_callback fun htype => ?_
      cases rest with
      | nil => rfl
      | cons callee rest => simp [nonFunction?, hname, htype] at h
    | none =>
      unfold calledName? at hname
      unfold dispatch
      split at hname
      · rename_i n hn
        simp only [hn]
        split at hname
        · rename_i hnegative
          rw [if_pos hnegative]
          exact .throw _
        · rename_i hpositive
          rw [if_neg hpositive, hname]
          exact .throw _
      · rename_i hn
        simp only [hn]
        exact .throw _

theorem callHost_of_ok {args : List Word} {w : Word} (h : dispatch args e = .ok w t) : callHost args e = .ok w t := by
  unfold callHost EStateM.run
  rw [h]

theorem callHost_of_error {args : List Word} {err : RunError} (h : dispatch args e = .error err t) :
    callHost args e = .ok t.heap.undefined (t.withError err) := by
  unfold callHost EStateM.run
  rw [h]
  rfl

/-- A callee that is no function is noted, and the call goes on with the function that does nothing. -/
theorem dispatch_nonFunction {args : List Word} {callee : Word} {s : Stub} (h : nonFunction? args = some callee)
    (hs : e.stubs.compiled? "noop" = some s) : dispatch args e = .ok s.function { e.withError (notFunction e.heap callee) with
      events := (e.events.push (.callback "typeError" (args.length - 1))).push
        (.warning (e.heap.display callee ++ " is not a function")) } := by
  unfold nonFunction? at h
  split at h
  · rename_i id v rest
    split at h
    · rename_i hname
      cases h
      rw [dispatch_called hname]
      refine (modify_bind _ _).trans ?_
      have hs' : ({ e with events := e.events.push (.callback "typeError" (rest.length + 1)) } : Engine).stubs.compiled?
        "noop" = some s := hs
      exact callback_typeError hs'
    · cases h
  · cases h

theorem parks_callHost (args : List Word) :
    Parks noop (strictHost args) (lenientHost noop args) (callHost args) where
  remembering := remembering_callHost args
  returns {e w t} hnoop hrun := by
    obtain ⟨s, hs, rfl⟩ := hnoop
    unfold lenientHost at hrun
    unfold Stops strictHost failure?
    cases hcallee : nonFunction? args with
    | some callee =>
      simp only [hcallee] at hrun
      cases hrun
      refine ⟨some (notFunction e.heap callee), ⟨e, by simp only⟩, fun p => ?_⟩
      exact callHost_of_ok (dispatch_nonFunction hcallee hs)
    | none =>
      simp only [hcallee] at hrun
      have hblind := blind_dispatch hcallee
      cases hdispatch : dispatch args e with
      | ok w' t' =>
        rw [hdispatch] at hrun
        cases hrun
        refine ⟨none, by simp only, fun p => ?_⟩
        rw [Option.or_none]
        exact callHost_of_ok (hblind.ok hdispatch p)
      | error err t' =>
        rw [hdispatch] at hrun
        cases hrun
        refine ⟨some err, ⟨e, by simp only⟩, fun p => ?_⟩
        exact callHost_of_error (hblind.error hdispatch p)
  breaks {e err t} _ hrun := by
    unfold lenientHost at hrun
    split at hrun
    · cases hrun
    · split at hrun <;> cases hrun

/-! ### The machine -/

/-- Callers that differ in their hosts. -/
def ParksCalls (noop : Word) (strict lenient actual : Caller) : Prop :=
  ∀ entry self, Parks noop (strict entry self) (lenient entry self) (actual entry self)

namespace Machine

variable {strict lenient actual : Caller}

theorem blind_load (address : Nat) : Blind (load address) := .get_bind (fun _ _ => rfl) fun _ => .pure _

theorem blind_trap : Blind trap :=
  .get_bind (fun _ _ => rfl) fun _ => .ite (.bind (.throw _) fun _ => .update fun _ _ => rfl) (.update fun _ _ => rfl)

theorem blind_changeMemory (f : Memory → Memory) : Blind (changeMemory f) := .update fun _ _ => rfl

theorem parks_callFunction (hc : ParksCalls noop strict lenient actual) (target : Word) (activation : Activation) :
    Parks noop (callFunction strict target activation) (callFunction lenient target activation)
      (callFunction actual target activation) :=
  (Parks.of_blind (blind_load _) (remembering_load _)).bind fun _ =>
    (Parks.of_blind (blind_load _) (remembering_load _)).bind fun _ => hc _ _

theorem parks_perform (hc : ParksCalls noop strict lenient actual) (self : Activation) (regs : Registers)
    (action : Action) :
    Parks noop (perform strict self regs action) (perform lenient self regs action) (perform actual self regs action) := by
  have hload : ∀ address, Parks noop (load address) (load address) (load address) := fun _ =>
    .of_blind (blind_load _) (remembering_load _)
  have hchange : ∀ (f : Memory → Memory), Parks noop (changeMemory f) (changeMemory f) (changeMemory f) := fun _ =>
    .of_blind (blind_changeMemory _) (remembering_changeMemory _)
  have htrap : Parks noop trap trap trap := .of_blind blind_trap remembering_trap
  unfold perform
  cases action
  case call target receiver args argc => exact parks_callFunction hc _ _
  case forwardCall target receiver argc start => exact parks_callFunction hc _ _
  case read object offset => exact hload _
  case readIndexed object index offset scale => exact hload _
  case trap => exact htrap.bind fun _ => .pure _
  case write object offset value => exact (hchange _).bind fun _ => .pure _
  case writeIndexed object index offset scale value => exact (hchange _).bind fun _ => .pure _
  case fill object offset count value => exact (hchange _).bind fun _ => .pure _
  case setHeapTop a =>
    refine Parks.bind ?_ fun _ => .pure _
    exact .of_blind (.update fun _ _ => rfl) (.update fun _ => rfl)
  case global => exact .get_bind (fun _ _ => rfl) fun _ => .pure _
  case heapTop => exact .get_bind (fun _ _ => rfl) fun _ => .pure _
  case heapLimit => exact .get_bind (fun _ _ => rfl) fun _ => .pure _
  all_goals exact .pure _

theorem parks_runBody (hc : ParksCalls noop strict lenient actual) (self : Activation) (body : List MachineInstr)
    (regs : Registers) :
    Parks noop (runBody strict self body regs) (runBody lenient self body regs) (runBody actual self body regs) := by
  induction body generalizing regs with
  | nil => exact .pure _
  | cons i rest ih =>
    refine (parks_perform hc self regs i.action).bind fun result => ?_
    cases i.target with
    | some id => exact ih _
    | none => exact ih _

theorem parks_runFrom (hc : ParksCalls noop strict lenient actual) (program : Program) (self : Activation) (jumps : Nat)
    (id : BlockId) (regs : Registers) :
    Parks noop (runFrom strict program self jumps id regs) (runFrom lenient program self jumps id regs)
      (runFrom actual program self jumps id regs) := by
  induction jumps generalizing id regs with
  | zero => exact .throw _
  | succ jumps ih =>
    unfold runFrom
    cases program.block? id with
    | none => exact .throw _
    | some block =>
      refine (parks_runBody hc self _ regs).bind fun regs => ?_
      cases block.exit with
      | ret a => exact .pure _
      | tailCall target => exact parks_callFunction hc _ _
      | jump edge => exact ih _ _
      | branch condition ifTrue ifFalse => exact ih _ _

variable (noop) in
theorem parks_enter (depth : Nat) :
    ParksCalls noop (enterVia strictHost depth) (enterVia (lenientHost noop) depth) (enter depth) := by
  induction depth with
  | zero => exact fun _ _ => .throw _
  | succ depth ih =>
    intro entry self
    have htrap : Parks noop trap trap trap := .of_blind blind_trap remembering_trap
    refine .get_bind (fun _ _ => rfl) fun e => ?_
    cases e.routines[entry]? with
    | none => exact .throw _
    | some routine =>
      cases routine with
      | host => exact parks_callHost _
      | program program =>
        exact .ite (htrap.bind fun _ => parks_runFrom ih _ _ _ _ _) (parks_runFrom ih _ _ _ _ _)

end Machine

/-! ### Requests -/

/-- The actual steps come to what the other ones amount to, and leave something in the cell. -/
def Settles (noop : Word) (spec actual : RunM α) : Prop :=
  ∀ e p, HasNoop noop e → ∃ q, actual (e.withPending p) = outcomeWith q (spec e)

theorem settles_of_blind {x : RunM α} (h : Blind x) : Settles noop x x := fun e p _ => ⟨p, h e p⟩

theorem Settles.bind {spec actual : RunM α} {f g : α → RunM β} (h : Settles noop spec actual) (hr : Remembering actual)
    (hf : ∀ a, Settles noop (f a) (g a)) : Settles noop (spec >>= f) (actual >>= g) := by
  intro e p hnoop
  obtain ⟨q, hactual⟩ := h e p hnoop
  have hgrows := hr (e.withPending p)
  cases hspec : spec e with
  | error err t =>
    rw [hspec] at hactual
    exact ⟨q, by rw [bind_of_error hspec, bind_of_error hactual]; rfl⟩
  | ok a t =>
    rw [hspec] at hactual
    rw [finalState_ok hactual] at hgrows
    obtain ⟨q', hrest⟩ := hf a t q (hnoop.mono hgrows)
    exact ⟨q', by rw [bind_of_ok hspec, bind_of_ok hactual]; exact hrest⟩

theorem settles_invoke (function receiver : Word) (args : List Word) :
    Settles noop (settle noop function receiver args) (invoke function receiver args) := by
  refine (settles_of_blind (.askHeap _ _)).bind (remembering_askHeap _ _) fun code =>
    (settles_of_blind (.askHeap _ _)).bind (remembering_askHeap _ _) fun entry e p hnoop => ?_
  have hparks := Machine.parks_enter noop Machine.maxDepth entry
    { callee := function, receiver, args := args.toArray, argc := .ofNat args.length }
  rw [modify_bind]
  cases hlenient : enterVia (lenientHost noop) Machine.maxDepth entry
    { callee := function, receiver, args := args.toArray, argc := .ofNat args.length } e with
  | error err t =>
    obtain ⟨q, hactual⟩ := hparks.breaks hnoop hlenient none
    exact ⟨q, bind_of_error hactual⟩
  | ok w t =>
    obtain ⟨failure, hstops, hactual⟩ := hparks.returns hnoop hlenient
    refine ⟨none, (bind_of_ok (hactual none)).trans ?_⟩
    rw [Option.none_or]
    cases failure with
    | some err =>
      obtain ⟨t', hstrict⟩ := hstops
      simp only [hstrict]
      rfl
    | none =>
      simp only [show enterVia strictHost Machine.maxDepth entry _ e = .ok w t from hstops]
      rfl

namespace Request

/-- What a request amounts to. -/
def settled (noop : Word) : Request → RunM Word
  | eval source => do
    let function ← compiling (Engine.compile source)
    settle noop function (← get).global []
  | call function receiver args => settle noop function receiver args
  | request => request.act

theorem settles (request : Request) : Settles noop (request.settled noop) request.act := by
  cases request with
  | compile source => exact settles_of_blind (blind_compile source).compiling
  | eval source =>
    refine (settles_of_blind (blind_compile source).compiling).bind (remembering_compile source).compiling
      fun function e p hnoop => ?_
    exact settles_invoke function e.global [] e p hnoop
  | call function receiver args => exact settles_invoke function receiver args
  | miss cache object key update => exact settles_of_blind (blind_getPropertySlot cache object key update)
  | unit graph kind nested => exact settles_of_blind (blind_compileUnit graph kind nested).compiling
  | stub name => exact settles_of_blind ((blind_getStub name).bind fun _ => .pure _).compiling

end Request

end ScriptEngine.Engine
