import ScriptEngine.Proofs.Engine.Nesting
import ScriptEngine.Proofs.Engine.Compiling

/-!
What stubs need, and what an engine keeps of them. A stub is grounded if it is declared and all that it
needs is grounded; so nothing that it needs, however far down, is missing or needs itself. A request for
a stub that succeeds proves that the stub is grounded, and whatever has been compiled is kept.
-/

namespace ScriptEngine

open State Relation

/-- The stub that must be there before a constant can have a word. An inline cache needs the stub that
it ends in. -/
def Const.needed? : Const → Option String
  | .stub name => some name
  | .cache _ => some Stub.missStub
  | _ => none

/-- Whether code for a graph, once it is lowered, needs a stub. -/
def Graph.NeedsStub (g : Graph) (name : String) : Prop :=
  ∃ c, (Lowering.lower g).graph.Materialises c ∧ c.needed? = some name

/-- Whether the first branch of a graph leads to a block that ends in a call of a stub. -/
def Graph.continuesAt (g : Graph) (b : BlockId) (name : String) : Bool :=
  (g.successors ⟨0⟩).contains b && (g.blocks[b.index]?.any fun block => block.instrs.any fun id =>
    g.instrs[id.index]?.any fun i =>
      i.op == .prim .tailCall && i.inputs == [.const (.stub name)])

theorem Graph.materialises_of_continuesAt {g : Graph} {b : BlockId} {name : String}
    (h : g.continuesAt b name = true) : g.Materialises (.stub name) := by
  simp only [continuesAt, Bool.and_eq_true, List.contains_iff_mem, Option.any_eq_true,
    List.any_eq_true, beq_iff_eq] at h
  obtain ⟨hedge, block, hblock, id, hid, i, hi, hop, hinputs⟩ := h
  exact ⟨b, block, .single hedge, hblock, id, hid, i, .tailCall, hi, hop, 0, rfl, by simp [hinputs]⟩

/-- Dispatch code needs the miss stub. -/
theorem dispatchGraph_needs {kind : CacheKind} {g : Graph}
    (h : InlineCache.dispatchGraph kind [] = .ok g) : g.NeedsStub Stub.missStub := by
  have hmiss : ((InlineCache.dispatchGraph kind []).map fun g =>
      (Lowering.lower g).graph.continuesAt ⟨1⟩ Stub.missStub) = .ok true := by
    cases kind <;> decide +kernel
  rw [h] at hmiss
  exact ⟨_, Graph.materialises_of_continuesAt (Except.ok.inj hmiss), rfl⟩

namespace StubLibrary

/-- Whether code of a stub needs another stub. -/
def Needs (l : StubLibrary) (name need : String) : Prop :=
  ∃ source graph, l.declared[name]? = some source ∧ source.graph? name = some (.ok graph) ∧
    graph.NeedsStub need

/-- A declared stub that needs only grounded stubs. -/
inductive Grounded (l : StubLibrary) : String → Prop
  | intro {name : String} (declared : name ∈ l.declared)
    (needs : ∀ need, l.Needs name need → l.Grounded need) : l.Grounded name

section

variable {l l' l'' : StubLibrary} {name : String}

theorem Grounded.declared (h : l.Grounded name) : name ∈ l.declared := by
  cases h
  assumption

theorem Grounded.need {need : String} (h : l.Grounded name) (hneed : l.Needs name need) :
    l.Grounded need := by
  cases h with
  | intro _ needs => exact needs need hneed

theorem Grounded.of_declared (h : l.Grounded name) (hsame : l'.declared = l.declared) :
    l'.Grounded name := by
  induction h with
  | intro declared _ ih =>
    refine .intro (hsame ▸ declared) fun need hneed => ih need ?_
    unfold Needs at hneed ⊢
    rwa [hsame] at hneed

/-- What a grounded stub needs, directly or not, is grounded. -/
theorem Grounded.reached {need : String} (h : l.Grounded name)
    (hreach : ReflTransGen l.Needs name need) : l.Grounded need := by
  induction hreach with
  | refl => exact h
  | tail _ hneed ih => exact ih.need hneed

/-- A grounded stub does not need itself. -/
theorem Grounded.acyclic (h : l.Grounded name) : ¬ TransGen l.Needs name name := by
  induction h with
  | @intro name _ _ ih =>
    intro hcycle
    obtain ⟨need, hneed, hback⟩ := TransGen.head'_iff.mp hcycle
    exact ih need hneed (.tail' hback hneed)

/-! ### What is kept -/

/-- Everything that was compiled is grounded. -/
def Settled (l : StubLibrary) : Prop := ∀ name s, l.compiled? name = some s → l.Grounded name

/-- The library went on: the same stubs are declared and in progress, what was compiled is kept, and
nothing was compiled that is in progress or not grounded. -/
structure Grows (l l' : StubLibrary) : Prop where
  declared : l'.declared = l.declared
  inProgress : ∀ name, name ∈ l'.inProgress ↔ name ∈ l.inProgress
  kept : ∀ name s, l.compiled? name = some s → l'.compiled? name = some s
  busy : ∀ name ∈ l.inProgress, l'.compiled? name = l.compiled? name
  settled : l.Settled → l'.Settled

theorem Grows.refl (l : StubLibrary) : Grows l l :=
  ⟨rfl, fun _ => Iff.rfl, fun _ _ h => h, fun _ _ => rfl, fun h => h⟩

theorem Grows.trans (h : Grows l l') (h' : Grows l' l'') : Grows l l'' where
  declared := h'.declared.trans h.declared
  inProgress name := (h'.inProgress name).trans (h.inProgress name)
  kept name s hs := h'.kept name s (h.kept name s hs)
  busy name hname := (h'.busy name ((h.inProgress name).mpr hname)).trans (h.busy name hname)
  settled hs := h'.settled (h.settled hs)

/-- While a stub was compiled the library went on, and now the stub is no longer in progress. -/
theorem Grows.finish (result : Option Stub) (hnew : l.compiled? name = none)
    (hfree : name ∉ l.inProgress)
    (h : Grows { l with inProgress := l.inProgress.insert name } l')
    (hgrounded : l.Settled → ∀ s, result = some s → l.Grounded name) :
    Grows l (l'.finish name result) := by
  have hkept : ∀ other, other ≠ name →
      (l'.finish name result).compiled? other = l'.compiled? other := by
    intro other hne
    cases result with
    | none => rfl
    | some s =>
      exact (Std.TreeMap.getElem?_insert.trans (if_neg fun hsame =>
        hne (Std.compare_eq_iff_eq.mp hsame).symm))
  have hnewly : ∀ other s, (l'.finish name result).compiled? other = some s →
      l'.compiled? other = some s ∨ other = name ∧ result = some s := by
    intro other s hs
    by_cases hsame : other = name
    · subst hsame
      cases result with
      | none => exact .inl hs
      | some stub => exact .inr ⟨rfl, Std.TreeMap.getElem?_insert_self.symm.trans hs⟩
    · exact .inl (hkept other hsame ▸ hs)
  refine ⟨h.declared, fun other => ?_, fun other s hs => ?_, fun other hother => ?_, fun hs => ?_⟩
  · have hother := h.inProgress other
    simp only [Std.TreeSet.mem_insert] at hother
    simp only [StubLibrary.finish, Std.TreeSet.mem_erase, hother]
    constructor
    · rintro ⟨hne, hsame | hmem⟩
      · exact absurd hsame hne
      · exact hmem
    · intro hmem
      refine ⟨fun hsame => hfree ?_, .inr hmem⟩
      rw [Std.compare_eq_iff_eq.mp hsame]
      exact hmem
  · have hne : other ≠ name := by
      rintro rfl
      rw [hnew] at hs
      cases hs
    rw [hkept other hne]
    exact h.kept other s hs
  · have hne : other ≠ name := by
      rintro rfl
      exact hfree hother
    rw [hkept other hne]
    exact h.busy other (Std.TreeSet.mem_insert.mpr (.inr hother))
  · intro other s hs'
    have hsettled : l'.Settled := h.settled fun n s hn => (hs n s hn).of_declared rfl
    rcases hnewly other s hs' with hold | ⟨rfl, rfl⟩
    · exact (hsettled other s hold).of_declared rfl
    · exact (hgrounded hs s rfl).of_declared h.declared

end
end StubLibrary

namespace Engine

variable {ε α β : Type} {e e' : Engine}

theorem finalState_get_bind (f : Engine → EStateM ε Engine α) (e : Engine) :
    finalState ((get : EStateM ε Engine Engine) >>= f) e = finalState (f e) e := rfl

/-! ### Brackets -/

/-- Leaving a scope changes neither the outcome nor the stubs. -/
theorem withScope_outcome (kind : ScopeKind) (act : EStateM ε Engine α) (e : Engine) :
    ∃ t : Engine, t.stubs = (finalState act (e.inScope kind)).stubs ∧
      withScope kind act e = match act (e.inScope kind) with
        | .ok a _ => .ok a t
        | .error err _ => .error err t := by
  have henter : (enterScope kind : EStateM ε Engine Nat) e =
      .ok e.heap.scopes.nextId (e.inScope kind) := rfl
  obtain ⟨t, hleave, hstubs⟩ : ∃ t, (leaveScope e.heap.scopes.nextId : EStateM ε Engine Unit)
      (finalState act (e.inScope kind)) = .ok () t ∧
        t.stubs = (finalState act (e.inScope kind)).stubs := by
    unfold leaveScope
    split
    · exact ⟨_, rfl, rfl⟩
    · exact ⟨_, rfl, rfl⟩
  refine ⟨t, hstubs, (bind_of_ok henter).trans ?_⟩
  cases hact : act (e.inScope kind) with
  | ok a t' =>
    rw [finalState_ok hact] at hleave
    simp only [EStateM.run, hact]
    exact seqRight_of_ok hleave
  | error err t' =>
    rw [finalState_error hact] at hleave
    simp only [EStateM.run, hact]
    exact seqRight_of_ok hleave

/-- Leaving a context changes neither the outcome nor the stubs. -/
theorem withContext_outcome (context : CompileContext) (act : Nat → EStateM ε Engine α)
    (e : Engine) : ∃ t : Engine,
      t.stubs = (finalState (act (e.contexts.depth + 1)) (e.inContext context)).stubs ∧
      withContext context act e = match act (e.contexts.depth + 1) (e.inContext context) with
        | .ok a _ => .ok a t
        | .error err _ => .error err t := by
  obtain ⟨t, hleave, hstubs⟩ : ∃ t, (leaveContext (e.contexts.depth + 1) : EStateM ε Engine Unit)
      (finalState (act (e.contexts.depth + 1)) (e.inContext context)) = .ok () t ∧
        t.stubs = (finalState (act (e.contexts.depth + 1)) (e.inContext context)).stubs :=
    ⟨_, rfl, rfl⟩
  refine ⟨t, hstubs, ?_⟩
  cases hact : act (e.contexts.depth + 1) (e.inContext context) with
  | ok a t' =>
    rw [finalState_ok hact] at hleave
    simp only [inContext, ContextStack.enter] at hact
    simp only [withContext, ContextStack.enter, EStateM.run, hact]
    exact seqRight_of_ok hleave
  | error err t' =>
    rw [finalState_error hact] at hleave
    simp only [inContext, ContextStack.enter] at hact
    simp only [withContext, ContextStack.enter, EStateM.run, hact]
    exact seqRight_of_ok hleave

theorem stubs_withScope (kind : ScopeKind) (act : EStateM ε Engine α) (e : Engine) :
    (finalState (withScope kind act) e).stubs = (finalState act (e.inScope kind)).stubs := by
  obtain ⟨t, hstubs, hrun⟩ := withScope_outcome kind act e
  rw [← hstubs]
  unfold finalState
  rw [hrun]
  cases act (e.inScope kind) <;> rfl

theorem stubs_withContext (context : CompileContext) (act : Nat → EStateM ε Engine α)
    (e : Engine) : (finalState (withContext context act) e).stubs =
      (finalState (act (e.contexts.depth + 1)) (e.inContext context)).stubs := by
  obtain ⟨t, hstubs, hrun⟩ := withContext_outcome context act e
  rw [← hstubs]
  unfold finalState
  rw [hrun]
  cases act (e.contexts.depth + 1) (e.inContext context) <;> rfl

theorem of_withScope {kind : ScopeKind} {act : EStateM ε Engine α} {a : α}
    (h : withScope kind act e = .ok a e') :
    ∃ t : Engine, act (e.inScope kind) = .ok a t ∧ e'.stubs = t.stubs := by
  obtain ⟨t, hstubs, hrun⟩ := withScope_outcome kind act e
  rw [hrun] at h
  split at h
  · rename_i hact
    cases h
    exact ⟨_, hact, hstubs.trans (by rw [finalState_ok hact])⟩
  · cases h

theorem of_withContext {context : CompileContext} {act : Nat → EStateM ε Engine α} {a : α}
    (h : withContext context act e = .ok a e') :
    ∃ t : Engine, act (e.contexts.depth + 1) (e.inContext context) = .ok a t ∧
      e'.stubs = t.stubs := by
  obtain ⟨t, hstubs, hrun⟩ := withContext_outcome context act e
  rw [hrun] at h
  split at h
  · rename_i hact
    cases h
    exact ⟨_, hact, hstubs.trans (by rw [finalState_ok hact])⟩
  · cases h

/-- Steps that leave the library as it is, or go on with it. -/
def Remembering (x : EStateM ε Engine α) : Prop := ∀ e : Engine, e.stubs.Grows (finalState x e).stubs

namespace Remembering

theorem of_stubs {x : EStateM ε Engine α} (h : ∀ e, (finalState x e).stubs = e.stubs) :
    Remembering x := by
  intro e
  rw [h]
  exact .refl _

theorem pure (a : α) : Remembering (Pure.pure a : EStateM ε Engine α) := of_stubs fun _ => rfl

theorem throw (err : ε) : Remembering (throw err : EStateM ε Engine α) := of_stubs fun _ => rfl

theorem get : Remembering (get : EStateM ε Engine Engine) := of_stubs fun _ => rfl

theorem update {f : Engine → Engine} (h : ∀ e, (f e).stubs = e.stubs) :
    Remembering (modify f : EStateM ε Engine Unit) := of_stubs h

theorem bind {x : EStateM ε Engine α} {f : α → EStateM ε Engine β} (hx : Remembering x)
    (hf : ∀ a, Remembering (f a)) : Remembering (x >>= f) := by
  intro e
  refine finalState_bind (P := fun t : Engine => e.stubs.Grows t.stubs) (fun a t hok => ?_) fun err t herror => ?_
  · exact (finalState_ok hok ▸ hx e).trans (hf a t)
  · exact finalState_error herror ▸ hx e

theorem ite {c : Prop} [Decidable c] {x y : EStateM ε Engine α} (hx : Remembering x)
    (hy : Remembering y) : Remembering (if c then x else y) := by
  split
  · exact hx
  · exact hy

theorem onHeap (wrap : HeapError → ε) (act : HeapM α) : Remembering (onHeap wrap act) := by
  refine of_stubs fun e => ?_
  rw [finalState_onHeap]

theorem liftExcept (x : Except ε α) : Remembering (liftExcept x) := by
  cases x with
  | ok a => exact .pure a
  | error err => exact .throw err

theorem withScope (kind : ScopeKind) {act : EStateM ε Engine α} (h : Remembering act) :
    Remembering (withScope kind act) := by
  intro e
  rw [stubs_withScope]
  exact h (e.inScope kind)

theorem withContext (context : CompileContext) {act : Nat → EStateM ε Engine α}
    (h : ∀ depth, Remembering (act depth)) : Remembering (withContext context act) := by
  intro e
  rw [stubs_withContext]
  exact h _ (e.inContext context)

theorem forM {l : List α} {f : α → EStateM ε Engine PUnit} (hf : ∀ a, Remembering (f a)) :
    Remembering (l.forM f) := by
  induction l with
  | nil => exact .pure _
  | cons a l ih => exact (hf a).bind fun _ => ih

theorem foldlM {l : List α} {f : β → α → EStateM ε Engine β} (hf : ∀ b a, Remembering (f b a))
    (b : β) : Remembering (l.foldlM f b) := by
  induction l generalizing b with
  | nil => exact .pure b
  | cons a l ih => exact (hf b a).bind ih

theorem compiling {act : CompileM α} (h : Remembering act) : Remembering (compiling act) := by
  intro e
  rw [finalState_compiling]
  exact h e

end Remembering

/-! ### Units -/

/-- Compilers of units that go on with the library, and that are done only if what they need is
grounded. -/
structure Grounding (compile : UnitCompiler) : Prop where
  remembering : ∀ graph kind nested, Remembering (compile graph kind nested)
  grounds : ∀ {graph kind nested w e e'}, compile graph kind nested e = .ok w e' →
    e.stubs.Settled → ∀ name, graph.NeedsStub name → e.stubs.Grounded name

section

variable {compile : UnitCompiler} {name : String}

theorem remembering_buildGraph (graph : Except GraphError Graph) :
    Remembering (buildGraph graph) := by
  cases graph with
  | ok g => exact .pure g
  | error e => exact .throw _

theorem remembering_buildStub (hc : Grounding compile) (name : String) (source : StubSource) :
    Remembering (buildStub compile name source) := by
  refine .withScope _ ?_
  cases source with
  | host => exact (Remembering.onHeap _ _).bind fun _ => (Remembering.onHeap _ _).bind fun _ => .pure _
  | body build =>
    exact (remembering_buildGraph _).bind fun _ => (hc.remembering _ _ _).bind fun _ =>
      (Remembering.onHeap _ _).bind fun _ => .pure _

/-- A stub that was built needs only grounded stubs. -/
theorem needs_of_buildStub (hc : Grounding compile) {source : StubSource} {s : Stub}
    (hdeclared : e.stubs.declared[name]? = some source) (hs : e.stubs.Settled)
    (h : buildStub compile name source e = .ok s e') (need : String) (hneed : e.stubs.Needs name need) :
    e.stubs.Grounded need := by
  obtain ⟨source', graph, hsource, hgraph, hneeds⟩ := hneed
  rw [hdeclared] at hsource
  cases hsource
  cases source with
  | host => cases hgraph
  | body build =>
    obtain ⟨t, hbody, -⟩ := of_withScope h
    obtain ⟨g, t₁, hbuild, hrest⟩ := bind_eq_ok.mp hbody
    obtain ⟨hg, rfl⟩ := stubs_of_buildGraph hbuild
    obtain ⟨code, t₂, hcode, -⟩ := bind_eq_ok.mp hrest
    have hsame : g = graph := Except.ok.inj (hg.symm.trans (Option.some.inj hgraph))
    subst hsame
    exact hc.grounds hcode hs need hneeds

theorem grounded_of_marking (hc : Grounding compile) {source : StubSource}
    (hnew : e.stubs.compiled? name = none) (hdeclared : e.stubs.declared[name]? = some source) :
    e.stubs.Grows (finalState (marking name (buildStub compile name source)) e).stubs := by
  by_cases hmem : name ∈ e.stubs.inProgress
  · rw [marking_of_mem hmem]
    exact .refl _
  · have hgrows := remembering_buildStub hc name source (e.marked name)
    have hmember : name ∈ e.stubs.declared :=
      Std.TreeMap.mem_iff_isSome_getElem?.mpr (by rw [hdeclared]; rfl)
    cases hbuild : buildStub compile name source (e.marked name) with
    | ok s t =>
      rw [finalState_ok hbuild] at hgrows
      rw [finalState_ok (marking_ok hmem hbuild)]
      refine .finish (some s) hnew hmem hgrows fun hs _ _ => .intro hmember fun need hneed => ?_
      exact (needs_of_buildStub (e := e.marked name) hc hdeclared
        (fun n s hn => (hs n s hn).of_declared rfl) hbuild need hneed).of_declared rfl
    | error err t =>
      rw [finalState_error hbuild] at hgrows
      rw [finalState_error (marking_error hmem hbuild)]
      exact .finish none hnew hmem hgrows fun _ s hs => by cases hs

theorem remembering_stub (hc : Grounding compile) (name : String) :
    Remembering (stub compile name) := by
  intro e
  cases hnew : e.stubs.compiled? name with
  | some s =>
    rw [finalState_ok (stub_of_compiled hnew)]
    exact .refl _
  | none =>
    cases hdeclared : e.stubs.declared[name]? with
    | none =>
      rw [finalState_error (stub_of_undeclared hnew hdeclared)]
      exact .refl _
    | some source =>
      have hrun : finalState (stub compile name) e =
          finalState (marking name (buildStub compile name source)) e := by
        unfold finalState
        rw [stub_of_declared hnew hdeclared]
      rw [hrun]
      exact grounded_of_marking hc hnew hdeclared

/-- A stub that was asked for with success is kept. -/
theorem compiled_of_stub {s : Stub} (h : stub compile name e = .ok s e') :
    e'.stubs.compiled? name = some s := by
  cases hnew : e.stubs.compiled? name with
  | some s' =>
    rw [stub_of_compiled hnew] at h
    cases h
    exact hnew
  | none =>
    cases hdeclared : e.stubs.declared[name]? with
    | none =>
      rw [stub_of_undeclared hnew hdeclared] at h
      cases h
    | some source =>
      rw [stub_of_declared hnew hdeclared] at h
      by_cases hmem : name ∈ e.stubs.inProgress
      · rw [marking_busy _ hmem] at h
        cases h
      · cases hbuild : buildStub compile name source (e.marked name) with
        | ok s' t =>
          rw [marking_ok hmem hbuild] at h
          cases h
          exact Std.TreeMap.getElem?_insert_self
        | error err t =>
          rw [marking_error hmem hbuild] at h
          cases h

theorem grounded_of_stub (hc : Grounding compile) {s : Stub} (hs : e.stubs.Settled)
    (h : stub compile name e = .ok s e') : e.stubs.Grounded name := by
  have hgrows := remembering_stub hc name e
  rw [finalState_ok h] at hgrows
  exact (hgrows.settled hs name s (compiled_of_stub h)).of_declared hgrows.declared.symm

theorem remembering_newCache (hc : Grounding compile) (kind : CacheKind) :
    Remembering (newCache compile kind) :=
  .withScope _ ((remembering_buildGraph _).bind fun _ => (hc.remembering _ _ _).bind fun _ =>
    (Remembering.onHeap _ _).bind fun _ => .bind (.update fun _ => rfl) fun _ => .pure _)

theorem grounded_of_newCache (hc : Grounding compile) {kind : CacheKind} {w : Word}
    (hs : e.stubs.Settled) (h : newCache compile kind e = .ok w e') :
    e.stubs.Grounded Stub.missStub := by
  obtain ⟨t, hbody, -⟩ := of_withScope h
  obtain ⟨g, t₁, hbuild, hrest⟩ := bind_eq_ok.mp hbody
  obtain ⟨hg, rfl⟩ := stubs_of_buildGraph hbuild
  obtain ⟨code, t₂, hcode, -⟩ := bind_eq_ok.mp hrest
  exact hc.grounds hcode hs _ (dispatchGraph_needs hg)

theorem remembering_resolve (hc : Grounding compile) (nested : Array (Option Word)) (c : Const) :
    Remembering (resolve compile nested c) := by
  unfold resolve
  split
  · exact .pure _
  · split
    · exact .pure _
    · exact .onHeap _ _
  · exact .onHeap _ _
  · exact .onHeap _ _
  iterate 4 exact Remembering.get.bind fun _ => .pure _
  iterate 2 exact .pure _
  · exact (remembering_stub hc _).bind fun _ => .pure _
  · exact (Remembering.liftExcept _).bind fun _ => .pure _
  · split
    · exact .pure _
    · exact .throw _
  · exact Remembering.get.bind fun _ => .pure _
  · exact remembering_newCache hc _
  iterate 3 exact .throw _

theorem grounded_of_resolve (hc : Grounding compile) {nested : Array (Option Word)} {c : Const}
    {w : Word} (hs : e.stubs.Settled) (h : resolve compile nested c e = .ok w e')
    (hneed : c.needed? = some name) : e.stubs.Grounded name := by
  cases c with
  | stub other =>
    cases hneed
    obtain ⟨s, t, hstub, -⟩ := bind_eq_ok.mp h
    exact grounded_of_stub hc hs hstub
  | cache kind =>
    cases hneed
    exact grounded_of_newCache hc hs h
  | _ => cases hneed

theorem remembering_prepare (trace : TraceStages) (graph : Graph) (kind : UnitKind) :
    Remembering (prepare trace graph kind) := by
  have hdump : ∀ traced graph stage, Remembering (traceDump traced graph kind stage) :=
    fun _ _ _ => .ite (.update fun _ => rfl) (.pure _)
  have hlower : Remembering (lowerGraph graph) := by
    refine .bind (.forM fun _ => .update fun _ => rfl) fun _ => ?_
    split
    · exact .throw _
    · exact .pure _
  exact (hdump _ _ _).bind fun _ => (hdump _ _ _).bind fun _ => hlower.bind fun _ =>
    (hdump _ _ _).bind fun _ => .pure _

theorem remembering_conclude (trace : TraceStages) (lowered : Graph) (kind : UnitKind)
    (depth : Nat) (outer : Option String) (emitted : Program × CodeRecord) :
    Remembering (conclude trace lowered kind depth outer emitted) := by
  have hdefine : Remembering (defineRoutine emitted.1) :=
    .ite (.bind (.throw _) fun _ => .bind .get fun _ => .bind (.update fun _ => rfl) fun _ => .pure _)
      (.bind .get fun _ => .bind (.update fun _ => rfl) fun _ => .pure _)
  have hrest : Remembering (do
      let entry ← defineRoutine emitted.1
      emitEvent (.compiled lowered.name kind depth outer lowered.instrs.size)
      Engine.onHeap .heap (Heap.allocCode entry 0 emitted.2) : CompileM Word) :=
    hdefine.bind fun _ => .bind (.update fun _ => rfl) fun _ => .onHeap _ _
  exact .ite (.bind (.update fun _ => rfl) fun _ => hrest) hrest

theorem remembering_emission (hc : Grounding compile) (nested : Array (Option Word)) {β : Type}
    (q : Inquiry β) : Remembering (q.run (resolve compile nested)) :=
  Inquiry.finalState_run (R := fun e e' => e.stubs.Grows e'.stubs) (fun _ => .refl _)
    (fun h h' => h.trans h') (fun c => remembering_resolve hc nested c)

theorem remembering_compileStep (hc : Grounding compile) (graph : Graph) (kind : UnitKind)
    (nested : Array (Option Word)) : Remembering (compileStep compile graph kind nested) :=
  .bind .get fun _ => .withContext _ fun _ => .bind .get fun _ =>
    (remembering_prepare _ _ _).bind fun _ => .bind .get fun _ =>
      (remembering_emission hc nested _).bind fun _ => remembering_conclude _ _ _ _ _ _

/-- The state in which the code of a unit begins to be generated. -/
def Begins (graph : Graph) (kind : UnitKind) (e : Engine) (lowered : Graph) (start : Engine) : Prop :=
  prepare e.config.trace graph kind (e.inContext { unit := graph.name, kind }) = .ok lowered start

theorem Begins.grows {graph lowered : Graph} {kind : UnitKind} {start : Engine}
    (h : Begins graph kind e lowered start) : e.stubs.Grows start.stubs := by
  have hgrows := remembering_prepare e.config.trace graph kind
    (e.inContext { unit := graph.name, kind })
  rwa [finalState_ok h] at hgrows

/-- A unit that is compiled got through the generation of its code. -/
theorem emission_of_compileStep {graph : Graph} {kind : UnitKind} {nested : Array (Option Word)}
    {w : Word} (h : compileStep compile graph kind nested e = .ok w e') : ∃ start emitted t,
      Begins graph kind e (Lowering.lower graph).graph start ∧
      (emission (Lowering.lower graph).graph start.config.trapOnEntry).run (resolve compile nested)
        start = .ok emitted t := by
  rw [compileStep_apply] at h
  obtain ⟨t, hbody, -⟩ := of_withContext h
  obtain ⟨e₁, t₁, hget, hbody⟩ := bind_eq_ok.mp hbody
  obtain ⟨rfl, rfl⟩ := get_eq_ok.mp hget
  obtain ⟨lowered, start, hprepare, hbody⟩ := bind_eq_ok.mp hbody
  obtain ⟨rfl, -⟩ := like_of_prepare hprepare
  obtain ⟨e₁, t₁, hget, hbody⟩ := bind_eq_ok.mp hbody
  obtain ⟨rfl, rfl⟩ := get_eq_ok.mp hget
  obtain ⟨emitted, t₁, hemit, -⟩ := bind_eq_ok.mp hbody
  exact ⟨start, emitted, t₁, hprepare, hemit⟩

theorem grounds_compileStep (hc : Grounding compile) {graph : Graph} {kind : UnitKind}
    {nested : Array (Option Word)} {w : Word}
    (h : compileStep compile graph kind nested e = .ok w e') (hs : e.stubs.Settled)
    (hneed : graph.NeedsStub name) : e.stubs.Grounded name := by
  obtain ⟨start, emitted, t, hbegins, hemit⟩ := emission_of_compileStep h
  obtain ⟨c, hc', hneeded⟩ := hneed
  obtain ⟨asked, w', t', hvisits, hresolve⟩ := (emission_demands _ _ hc').visits hemit
  have hgrows : start.stubs.Grows asked.stubs :=
    (hvisits.leaves (R := fun e e' => e.stubs.Grows e'.stubs) (fun _ => .refl _)
      (fun h h' => h.trans h') fun c => remembering_resolve hc nested c).1
  have hall := hbegins.grows.trans hgrows
  exact (grounded_of_resolve hc (hall.settled hs) hresolve hneeded).of_declared hall.declared.symm

end

theorem grounding_compileNested (nesting : Nat) : Grounding (compileNested nesting) := by
  induction nesting with
  | zero => exact ⟨fun _ _ _ => .throw _, fun h => (throw_eq_ok.mp h).elim⟩
  | succ nesting ih =>
    rw [compileNested_succ]
    exact ⟨remembering_compileStep ih, fun h hs _ => grounds_compileStep ih h hs⟩

theorem grounding_compileUnit : Grounding compileUnit :=
  ⟨fun _ _ _ => Remembering.get.bind fun _ => (grounding_compileNested _).remembering _ _ _,
    fun h => (grounding_compileNested _).grounds ((get_bind _).symm.trans h)⟩

end Engine
end ScriptEngine
