import ScriptEngine.Engine.Machine
import ScriptEngine.Proofs.Engine.Scoping

/-!
Plans: how an engine goes about an operation, step by step. A plan is made of single steps, none of
which touches the stacks of scopes and contexts or the marks of stubs in progress, and of brackets
that enter something and leave it again. Whatever fails on the way, all brackets that were entered
are left, so a plan restores what it found; and at every moment of it, the contexts are those of the
units that it is compiling.
-/

namespace ScriptEngine

/-- Whether an event tells that scopes or contexts were left out of order. -/
def Event.isFailure : Event → Bool
  | .failure _ _ => true
  | _ => false

namespace Engine

open State

variable {ε α β : Type} {e e' e'' : Engine}

/-- The stacks are as they were, but for roots that were added; the same stubs are declared, and the
same are in progress; and nothing was left out of order. -/
structure Unwound (e e' : Engine) : Prop where
  contexts : e'.contexts = e.contexts
  scopes : e.heap.scopes.Grows e'.heap.scopes
  declared : e'.stubs.declared = e.stubs.declared
  inProgress : ∀ name, name ∈ e'.stubs.inProgress ↔ name ∈ e.stubs.inProgress
  events : ∃ new : List Event, e'.events.toList = e.events.toList ++ new ∧
    ∀ event ∈ new, event.isFailure = false

namespace Unwound

theorem refl (e : Engine) : Unwound e e :=
  ⟨rfl, .refl _, rfl, fun _ => Iff.rfl, [], by simp, by simp⟩

theorem trans (h : Unwound e e') (h' : Unwound e' e'') : Unwound e e'' := by
  obtain ⟨new, hnew, hquiet⟩ := h.events
  obtain ⟨new', hnew', hquiet'⟩ := h'.events
  refine ⟨h'.contexts.trans h.contexts, h.scopes.trans h'.scopes, h'.declared.trans h.declared,
    fun name => (h'.inProgress name).trans (h.inProgress name), new ++ new', ?_, ?_⟩
  · rw [hnew', hnew, List.append_assoc]
  · intro event hevent
    rcases List.mem_append.mp hevent with hmem | hmem
    · exact hquiet event hmem
    · exact hquiet' event hmem

/-- Changes of anything else do not matter. -/
theorem of_eq (contexts : e'.contexts = e.contexts) (scopes : e'.heap.scopes = e.heap.scopes)
    (stubs : e'.stubs = e.stubs) (events : e'.events = e.events) : Unwound e e' := by
  refine ⟨contexts, ?_, by rw [stubs], fun name => by rw [stubs], [], by rw [events, List.append_nil], by simp⟩
  rw [scopes]
  exact .refl _

theorem push {event : Event} (h : event.isFailure = false) :
    Unwound e { e with events := e.events.push event } :=
  ⟨rfl, .refl _, rfl, fun _ => Iff.rfl, [event], by simp, by simpa using h⟩

end Unwound

/-! ### Plans -/

/-- Ask something about the engine. -/
def consult (question : Engine → Except ε α) : EStateM ε Engine α := fun e =>
  match question e with
  | .ok a => .ok a e
  | .error err => .error err e

/-- Mark a stub as being in progress while it is built. -/
def marking (name : String) (build : CompileM Stub) : CompileM Stub := do
  let stubs ← liftExcept ((← get).stubs.begin name)
  modify fun e => { e with stubs }
  fun e =>
    match build.run e with
    | .ok stub e => .ok stub { e with stubs := e.stubs.finish name (some stub) }
    | .error err e => .error err { e with stubs := e.stubs.finish name none }

/-- Go on in another way after a failure. -/
def rescuing (act : EStateM ε Engine α) (handler : ε → EStateM ε Engine α) :
    EStateM ε Engine α := fun e =>
  match act.run e with
  | .ok a e => .ok a e
  | .error err e => handler err e

inductive Plan : Type → Type → Type 1
  | consult {ε α : Type} (question : Engine → Except ε α) : Plan ε α
  | change {ε : Type} (f : Engine → Engine) (calm : ∀ e, Unwound e (f e)) : Plan ε Unit
  | onHeap {ε α : Type} (wrap : HeapError → ε) (act : HeapM α) (rooting : ∀ h, Heap.Rooting act h) :
    Plan ε α
  | bind {ε α β : Type} (first : Plan ε α) (next : α → Plan ε β) : Plan ε β
  | scope {ε α : Type} (kind : ScopeKind) (inside : Plan ε α) : Plan ε α
  | unit {ε α : Type} (context : CompileContext) (inside : Nat → Plan ε α) : Plan ε α
  | stub (name : String) (inside : Plan CompileError Stub) : Plan CompileError Stub
  | compiling {α : Type} (inside : Plan CompileError α) : Plan RunError α
  | rescuing {ε α : Type} (inside : Plan ε α) (handler : ε → Plan ε α) : Plan ε α

namespace Plan

/-- What a plan does. -/
def run : {ε α : Type} → Plan ε α → EStateM ε Engine α
  | _, _, consult question => Engine.consult question
  | _, _, change f _ => modify f
  | _, _, onHeap wrap act _ => Engine.onHeap wrap act
  | _, _, bind first next => first.run >>= fun a => (next a).run
  | _, _, scope kind inside => withScope kind inside.run
  | _, _, unit context inside => withContext context fun depth => (inside depth).run
  | _, _, stub name inside => marking name inside.run
  | _, _, compiling inside => Engine.compiling inside.run
  | _, _, rescuing inside handler => Engine.rescuing inside.run fun err => (handler err).run

end Plan

/-! ### Brackets -/

theorem finalState_consult (question : Engine → Except ε α) (e : Engine) :
    finalState (consult question) e = e := by
  unfold finalState consult
  cases question e <;> rfl

theorem finalState_onHeap (wrap : HeapError → ε) (act : HeapM α) (e : Engine) :
    finalState (onHeap wrap act) e = { e with heap := finalState act e.heap } := by
  unfold finalState onHeap EStateM.run
  simp only
  cases act e.heap <;> rfl

theorem unwound_onHeap (wrap : HeapError → ε) {act : HeapM α} (rooting : ∀ h, Heap.Rooting act h) :
    Unwound e (finalState (onHeap wrap act) e) := by
  rw [finalState_onHeap]
  exact ⟨rfl, rooting e.heap, rfl, fun _ => Iff.rfl, [], by simp, by simp⟩

/-- A scope in which roots were recorded can be left, and gives the scopes around it. -/
theorem leave_of_grows {s t : Scopes} {kind : ScopeKind} (h : (s.enter kind).2.Grows t) :
    ∃ u, t.leave s.nextId = .ok u ∧ s.Grows u := by
  obtain ⟨hframes, hpersistent⟩ := h
  unfold Scopes.leave
  cases hcases : t.frames with
  | nil =>
    rw [hcases] at hframes
    cases hframes
  | cons frame outer =>
    rw [hcases] at hframes
    cases hframes with
    | cons hfirst hrest =>
      refine ⟨{ t with frames := outer }, ?_, hrest, hpersistent⟩
      simp only [hfirst.1, if_true]

theorem leaveScope_eq {id : Nat} {u : Scopes} (h : e.heap.scopes.leave id = .ok u) :
    (leaveScope id : EStateM ε Engine Unit) e = .ok () { e with heap.scopes := u } := by
  unfold leaveScope
  rw [h]

/-- An engine in a scope more. -/
def inScope (e : Engine) (kind : ScopeKind) : Engine :=
  { e with heap.scopes := (e.heap.scopes.enter kind).2 }

theorem withScope_ok {kind : ScopeKind} {act : EStateM ε Engine α} {a : α} {u : Scopes}
    (hact : act (e.inScope kind) = .ok a e')
    (h : e'.heap.scopes.leave e.heap.scopes.nextId = .ok u) :
    withScope kind act e = .ok a { e' with heap.scopes := u } := by
  have henter : (enterScope kind : EStateM ε Engine Nat) e =
      .ok e.heap.scopes.nextId (e.inScope kind) := rfl
  refine (bind_of_ok henter).trans ?_
  simp only [EStateM.run, hact]
  exact seqRight_of_ok (leaveScope_eq h)

theorem withScope_error {kind : ScopeKind} {act : EStateM ε Engine α} {err : ε} {u : Scopes}
    (hact : act (e.inScope kind) = .error err e')
    (h : e'.heap.scopes.leave e.heap.scopes.nextId = .ok u) :
    withScope kind act e = .error err { e' with heap.scopes := u } := by
  have henter : (enterScope kind : EStateM ε Engine Nat) e =
      .ok e.heap.scopes.nextId (e.inScope kind) := rfl
  refine (bind_of_ok henter).trans ?_
  simp only [EStateM.run, hact]
  exact seqRight_of_ok (leaveScope_eq h)

theorem unwound_withScope (kind : ScopeKind) {act : EStateM ε Engine α}
    (inside : ∀ e, Unwound e (finalState act e)) :
    Unwound e (finalState (withScope kind act) e) := by
  have hbody := inside (e.inScope kind)
  obtain ⟨u, hleave, hgrows⟩ := leave_of_grows hbody.scopes
  have hunwound : Unwound e { finalState act (e.inScope kind) with heap.scopes := u } :=
    ⟨hbody.contexts, hgrows, hbody.declared, hbody.inProgress, hbody.events⟩
  cases hact : act (e.inScope kind) with
  | ok a t =>
    rw [finalState_ok hact] at hleave hunwound
    rwa [finalState_ok (withScope_ok hact hleave)]
  | error err t =>
    rw [finalState_error hact] at hleave hunwound
    rwa [finalState_error (withScope_error hact hleave)]

/-- An engine that compiles a unit more. -/
def inContext (e : Engine) (context : CompileContext) : Engine :=
  { e with contexts := (e.contexts.enter context).2 }

theorem leaveContext_eq {context : CompileContext}
    (h : e'.contexts = (e.inContext context).contexts) :
    (leaveContext (e.contexts.depth + 1) : EStateM ε Engine Unit) e' =
      .ok () { e' with contexts := e.contexts } := by
  have hleave : e'.contexts.leave (e.contexts.depth + 1) = (true, e.contexts) := by
    rw [h]
    simp [ContextStack.leave, inContext, ContextStack.enter, ContextStack.depth]
  unfold leaveContext
  rw [hleave]
  rfl

theorem withContext_ok {context : CompileContext} {act : Nat → EStateM ε Engine α} {a : α}
    (hact : act (e.contexts.depth + 1) (e.inContext context) = .ok a e')
    (h : e'.contexts = (e.inContext context).contexts) :
    withContext context act e = .ok a { e' with contexts := e.contexts } := by
  simp only [inContext, ContextStack.enter] at hact
  simp only [withContext, ContextStack.enter, EStateM.run, hact]
  exact seqRight_of_ok (leaveContext_eq h)

theorem withContext_error {context : CompileContext} {act : Nat → EStateM ε Engine α} {err : ε}
    (hact : act (e.contexts.depth + 1) (e.inContext context) = .error err e')
    (h : e'.contexts = (e.inContext context).contexts) :
    withContext context act e = .error err { e' with contexts := e.contexts } := by
  simp only [inContext, ContextStack.enter] at hact
  simp only [withContext, ContextStack.enter, EStateM.run, hact]
  exact seqRight_of_ok (leaveContext_eq h)

theorem unwound_withContext (context : CompileContext) {act : Nat → EStateM ε Engine α}
    (inside : ∀ depth e, Unwound e (finalState (act depth) e)) :
    Unwound e (finalState (withContext context act) e) := by
  have hbody := inside (e.contexts.depth + 1) (e.inContext context)
  have hcontexts := hbody.contexts
  have hunwound : Unwound e { finalState (act (e.contexts.depth + 1)) (e.inContext context) with
      contexts := e.contexts } :=
    ⟨rfl, hbody.scopes, hbody.declared, hbody.inProgress, hbody.events⟩
  cases hact : act (e.contexts.depth + 1) (e.inContext context) with
  | ok a t =>
    rw [finalState_ok hact] at hcontexts hunwound
    rwa [finalState_ok (withContext_ok hact hcontexts)]
  | error err t =>
    rw [finalState_error hact] at hcontexts hunwound
    rwa [finalState_error (withContext_error hact hcontexts)]

/-- An engine in which a stub is marked. -/
def marked (e : Engine) (name : String) : Engine :=
  { e with stubs.inProgress := e.stubs.inProgress.insert name }

theorem unwound_unmarked {name : String} {result : Option Stub}
    (free : name ∉ e.stubs.inProgress) (h : Unwound (e.marked name) e') :
    Unwound e { e' with stubs := e'.stubs.finish name result } := by
  refine ⟨h.contexts, h.scopes, h.declared, fun other => ?_, h.events⟩
  have hother := h.inProgress other
  simp only [marked, Std.TreeSet.mem_insert] at hother
  simp only [StubLibrary.finish, Std.TreeSet.mem_erase, hother]
  constructor
  · rintro ⟨hne, hsame | hmem⟩
    · exact absurd hsame hne
    · exact hmem
  · intro hmem
    refine ⟨fun hsame => free ?_, .inr hmem⟩
    rw [Std.compare_eq_iff_eq.mp hsame]
    exact hmem

theorem begin_of_free {name : String} (free : name ∉ e.stubs.inProgress) :
    liftExcept (e.stubs.begin name) e = .ok (e.marked name).stubs e := by
  have hfree : e.stubs.inProgress.contains name = false :=
    Bool.eq_false_iff.mpr fun hmem => free (Std.TreeSet.mem_iff_contains.mpr hmem)
  unfold StubLibrary.begin
  rw [hfree]
  rfl

theorem marking_ok {name : String} {build : CompileM Stub} {stub : Stub}
    (free : name ∉ e.stubs.inProgress) (hbuild : build (e.marked name) = .ok stub e') :
    marking name build e = .ok stub { e' with stubs := e'.stubs.finish name (some stub) } := by
  refine (bind_of_ok (begin_of_free free)).trans ((modify_bind _ _).trans ?_)
  simp only [marked] at hbuild
  simp only [EStateM.run, marked, hbuild]

theorem marking_error {name : String} {build : CompileM Stub} {err : CompileError}
    (free : name ∉ e.stubs.inProgress) (hbuild : build (e.marked name) = .error err e') :
    marking name build e = .error err { e' with stubs := e'.stubs.finish name none } := by
  refine (bind_of_ok (begin_of_free free)).trans ((modify_bind _ _).trans ?_)
  simp only [marked] at hbuild
  simp only [EStateM.run, marked, hbuild]

theorem marking_eq {name : String} (build : CompileM Stub) (free : name ∉ e.stubs.inProgress) :
    ∃ result, finalState (marking name build) e =
      { finalState build (e.marked name) with
        stubs := (finalState build (e.marked name)).stubs.finish name result } := by
  cases hbuild : build (e.marked name) with
  | ok stub t =>
    exact ⟨some stub, by rw [finalState_ok (marking_ok free hbuild), finalState_ok hbuild]⟩
  | error err t =>
    exact ⟨none, by rw [finalState_error (marking_error free hbuild), finalState_error hbuild]⟩

theorem marking_of_mem {name : String} {build : CompileM Stub} (h : name ∈ e.stubs.inProgress) :
    finalState (marking name build) e = e := by
  obtain ⟨err, hlift⟩ : ∃ err, liftExcept (e.stubs.begin name) e = .error err e := by
    unfold StubLibrary.begin
    rw [Std.TreeSet.mem_iff_contains.mp h]
    exact ⟨_, rfl⟩
  exact finalState_error ((get_bind _).trans (bind_of_error hlift))

theorem unwound_marking (name : String) {build : CompileM Stub}
    (inside : ∀ e, Unwound e (finalState build e)) :
    Unwound e (finalState (marking name build) e) := by
  by_cases hmem : name ∈ e.stubs.inProgress
  · rw [marking_of_mem hmem]
    exact .refl e
  · obtain ⟨result, hrun⟩ := marking_eq build hmem
    rw [hrun]
    exact unwound_unmarked hmem (inside (e.marked name))

theorem compiling_ok {act : CompileM α} {a : α} (h : act e = .ok a e') :
    compiling act e = .ok a e' := by
  simp only [compiling, EStateM.run, h]

theorem compiling_error {act : CompileM α} {err : CompileError} (h : act e = .error err e') :
    compiling act e = .error (.compile err) e' := by
  simp only [compiling, EStateM.run, h]

theorem finalState_compiling (act : CompileM α) (e : Engine) :
    finalState (compiling act) e = finalState act e := by
  cases h : act e with
  | ok a t => rw [finalState_ok h, finalState_ok (compiling_ok h)]
  | error err t => rw [finalState_error h, finalState_error (compiling_error h)]

theorem unwound_rescuing {act : EStateM ε Engine α} {handler : ε → EStateM ε Engine α}
    (inside : Unwound e (finalState act e))
    (after : ∀ err e, Unwound e (finalState (handler err) e)) :
    Unwound e (finalState (rescuing act handler) e) := by
  cases hact : act e with
  | ok a t =>
    have hrun : rescuing act handler e = .ok a t := by
      simp only [rescuing, EStateM.run, hact]
    rw [finalState_ok hact] at inside
    rwa [finalState_ok hrun]
  | error err t =>
    have hrun : finalState (rescuing act handler) e = finalState (handler err) t := by
      simp only [finalState, rescuing, EStateM.run, hact]
    rw [finalState_error hact] at inside
    rw [hrun]
    exact inside.trans (after err t)

/-! ### Runs -/

/-- A plan restores what it found, whether it succeeds or fails. -/
theorem Plan.unwound (p : Plan ε α) (e : Engine) : Unwound e (finalState p.run e) := by
  induction p generalizing e with
  | consult question =>
    unfold run
    rw [finalState_consult]
    exact .refl e
  | change f calm => exact calm e
  | onHeap wrap act rooting => exact unwound_onHeap wrap rooting
  | bind first next hfirst hnext =>
    refine finalState_bind (P := fun t => Unwound e t) ?_ ?_
    · intro a t hok
      exact (finalState_ok hok ▸ hfirst e).trans (hnext a t)
    · intro err t herror
      exact finalState_error herror ▸ hfirst e
  | scope kind inside ih => exact unwound_withScope kind ih
  | unit context inside ih => exact unwound_withContext context ih
  | stub name inside ih => exact unwound_marking name ih
  | compiling inside ih =>
    unfold run
    rw [finalState_compiling]
    exact ih e
  | rescuing inside handler hinside hhandler => exact unwound_rescuing (hinside e) hhandler

/-- `Moment p e units m`: when `p` is run from `e`, the engine is in state `m` at some time, and
then the units are being compiled that `p` has entered and not left, innermost first. -/
inductive Plan.Moment : {ε α : Type} → Plan ε α → Engine → List CompileContext → Engine → Prop
  | start {ε α : Type} {p : Plan ε α} {e : Engine} : Moment p e [] e
  | finish {ε α : Type} {p : Plan ε α} {e : Engine} : Moment p e [] (finalState p.run e)
  | first {ε α β : Type} {p : Plan ε α} {next : α → Plan ε β} {e m : Engine}
    {units : List CompileContext} (h : Moment p e units m) : Moment (.bind p next) e units m
  | next {ε α β : Type} {p : Plan ε α} {next : α → Plan ε β} {e t m : Engine}
    {units : List CompileContext} {a : α} (ok : p.run e = .ok a t)
    (h : Moment (next a) t units m) : Moment (.bind p next) e units m
  | scope {ε α : Type} {kind : ScopeKind} {p : Plan ε α} {e m : Engine}
    {units : List CompileContext} (h : Moment p (e.inScope kind) units m) :
    Moment (.scope kind p) e units m
  | unit {ε α : Type} {context : CompileContext} {p : Nat → Plan ε α} {e m : Engine}
    {units : List CompileContext}
    (h : Moment (p (e.contexts.depth + 1)) (e.inContext context) units m) :
    Moment (.unit context p) e (units ++ [context]) m
  | stub {name : String} {p : Plan CompileError Stub} {e m : Engine} {units : List CompileContext}
    (h : Moment p (e.marked name) units m) : Moment (.stub name p) e units m
  | compiling {α : Type} {p : Plan CompileError α} {e m : Engine} {units : List CompileContext}
    (h : Moment p e units m) : Moment (.compiling p) e units m
  | rescuing {ε α : Type} {p : Plan ε α} {handler : ε → Plan ε α} {e m : Engine}
    {units : List CompileContext} (h : Moment p e units m) : Moment (.rescuing p handler) e units m
  | handler {ε α : Type} {p : Plan ε α} {handler : ε → Plan ε α} {e t m : Engine}
    {units : List CompileContext} {err : ε} (failed : p.run e = .error err t)
    (h : Moment (handler err) t units m) : Moment (.rescuing p handler) e units m

/-- At every moment, the contexts are those of the units in progress. -/
theorem Plan.Moment.contexts {p : Plan ε α} {units : List CompileContext} {m : Engine}
    (h : p.Moment e units m) : m.contexts.frames = units ++ e.contexts.frames := by
  induction h with
  | start => rfl
  | @finish _ _ p e =>
    rw [(p.unwound e).contexts]
    rfl
  | first _ ih => exact ih
  | @next _ _ _ p _ e _ _ _ _ ok _ ih =>
    have hfirst := p.unwound e
    rw [finalState_ok ok] at hfirst
    rw [ih, hfirst.contexts]
  | scope _ ih => exact ih
  | unit _ ih => rw [ih, List.append_assoc]; rfl
  | stub _ ih => exact ih
  | compiling _ ih => exact ih
  | rescuing _ ih => exact ih
  | @handler _ _ p _ e _ _ _ _ failed _ ih =>
    have hinside := p.unwound e
    rw [finalState_error failed] at hinside
    rw [ih, hinside.contexts]

end Engine
end ScriptEngine
