import ScriptEngine.Proofs.Engine.Planned

/-!
Compilations in compilations. A unit may need stubs and inline caches, which are units themselves, so
the compiler of units is given by an equation for itself. It has one solution: on the way down, every
stub is marked, and dispatch code without probes needs no inline cache, so compilations are nested in
each other at most about twice as often as stubs are declared, whatever the bodies of the stubs are.
-/

namespace ScriptEngine

/-- Declared stubs that are not in progress. -/
def StubLibrary.free (l : StubLibrary) : Nat :=
  (l.declared.keys.filter fun name => !l.inProgress.contains name).length

/-- Whether an instruction of the graph may need an inline cache of its own. -/
def Graph.hasCache (g : Graph) : Bool :=
  g.instrs.any fun i => i.inputs.any fun
    | .const (.cache _) => true
    | _ => false

theorem Graph.hasCache_of_carries {g : Graph} {kind : CacheKind} (h : g.Carries (.cache kind)) :
    g.hasCache = true := by
  obtain ⟨i, hi, hc⟩ := (h.resolve_left nofun).resolve_left nofun
  exact Array.any_eq_true'.mpr ⟨i, hi, List.any_eq_true.mpr ⟨_, hc, rfl⟩⟩

/-- Dispatch code without probes needs no inline cache. -/
theorem dispatchGraph_hasCache {kind : CacheKind} {g : Graph}
    (h : InlineCache.dispatchGraph kind [] = .ok g) : (Lowering.lower g).graph.hasCache = false := by
  have hflat : ((InlineCache.dispatchGraph kind []).map fun g =>
      (Lowering.lower g).graph.hasCache) = .ok false := by
    cases kind <;> decide +kernel
  rw [h] at hflat
  exact Except.ok.inj hflat

namespace Engine

open State

variable {ε α β : Type}

/-! ### The equation of the compiler -/

/-- Lower a graph, with a dump before each stage. -/
def prepare (trace : TraceStages) (graph : Graph) (kind : UnitKind) : CompileM Graph := do
  traceDump trace.cfg graph kind "cfg"
  traceDump trace.opt graph kind "opt"
  let lowered ← lowerGraph graph
  traceDump trace.lowered lowered kind "lowered"
  return lowered

/-- Make a code object of what was generated for a lowered graph. -/
def conclude (trace : TraceStages) (lowered : Graph) (kind : UnitKind) (depth : Nat)
    (outer : Option String) (emitted : Program × CodeRecord) : CompileM Word := do
  if trace.machine then emitEvent (.dump lowered.name kind "clif" none)
  let entry ← defineRoutine emitted.1
  emitEvent (.compiled lowered.name kind depth outer lowered.instrs.size)
  onHeap .heap (Heap.allocCode entry 0 emitted.2)

/-- What is done inside the context of a unit, with `compile` for the stubs and inline caches that it
needs. -/
def compileInside (compile : UnitCompiler) (graph : Graph) (kind : UnitKind)
    (nested : Array (Option Word)) (outer : Option String) (depth : Nat) : CompileM Word := do
  let trace := (← get).config.trace
  let lowered ← prepare trace graph kind
  let trap := (← get).config.trapOnEntry
  let emitted ← (emission lowered trap).run (resolve compile nested)
  conclude trace lowered kind depth outer emitted

/-- Compile a unit, with `compile` for the units in it. -/
def compileStep (compile : UnitCompiler) : UnitCompiler := fun graph kind nested => do
  let outer := (← get).contexts.current?.map (·.unit)
  withContext { unit := graph.name, kind } (compileInside compile graph kind nested outer)

theorem compileNested_succ (nesting : Nat) :
    compileNested (nesting + 1) = compileStep (compileNested nesting) := by
  funext graph kind nested
  unfold compileStep compileInside
  simp only [compileNested, prepare, conclude, run_emission, bind_assoc, pure_bind]

theorem compileStep_apply (compile : UnitCompiler) (graph : Graph) (kind : UnitKind)
    (nested : Array (Option Word)) (e : Engine) :
    compileStep compile graph kind nested e = withContext { unit := graph.name, kind }
      (compileInside compile graph kind nested (e.contexts.current?.map (·.unit))) e := get_bind _

/-! ### Runs that agree -/

section

variable {e e' : Engine}

theorem bind_congr {x x' : EStateM ε Engine α} {f f' : α → EStateM ε Engine β} (hx : x e = x' e)
    (hf : ∀ a t, x e = .ok a t → f a t = f' a t) : (x >>= f) e = (x' >>= f') e := by
  cases hrun : x e with
  | ok a t =>
    rw [bind_of_ok hrun, bind_of_ok (hx ▸ hrun)]
    exact hf a t hrun
  | error err t => rw [bind_of_error hrun, bind_of_error (hx ▸ hrun)]

theorem withContext_congr {context : CompileContext} {act act' : Nat → EStateM ε Engine α}
    (h : act (e.contexts.depth + 1) (e.inContext context) =
      act' (e.contexts.depth + 1) (e.inContext context)) :
    withContext context act e = withContext context act' e := by
  simp only [inContext, ContextStack.enter] at h
  simp only [withContext, ContextStack.enter, EStateM.run, h]

theorem withScope_congr {kind : ScopeKind} {act act' : EStateM ε Engine α}
    (h : act (e.inScope kind) = act' (e.inScope kind)) :
    withScope kind act e = withScope kind act' e := by
  have henter : (enterScope kind : EStateM ε Engine Nat) e =
      .ok e.heap.scopes.nextId (e.inScope kind) := rfl
  refine (bind_of_ok henter).trans (.trans ?_ (bind_of_ok henter).symm)
  simp only [EStateM.run, h]

/-- A stub that is in progress must not be needed. -/
theorem marking_busy {name : String} (build : CompileM Stub) (h : name ∈ e.stubs.inProgress) :
    marking name build e =
      .error (.internal "getStub" ("stub '" ++ name ++ "' depends on itself")) e := by
  refine (get_bind _).trans (bind_of_error ?_)
  unfold StubLibrary.begin
  rw [Std.TreeSet.mem_iff_contains.mp h]
  rfl

theorem marking_congr {name : String} {build build' : CompileM Stub}
    (h : name ∉ e.stubs.inProgress → build (e.marked name) = build' (e.marked name)) :
    marking name build e = marking name build' e := by
  by_cases hmem : name ∈ e.stubs.inProgress
  · rw [marking_busy build hmem, marking_busy build' hmem]
  · cases hbuild : build (e.marked name) with
    | ok stub t => rw [marking_ok hmem hbuild, marking_ok hmem (h hmem ▸ hbuild)]
    | error err t => rw [marking_error hmem hbuild, marking_error hmem (h hmem ▸ hbuild)]

/-- The same stubs are declared, and the same are in progress. -/
structure Like (e e' : Engine) : Prop where
  declared : e'.stubs.declared = e.stubs.declared
  inProgress : ∀ name, name ∈ e'.stubs.inProgress ↔ name ∈ e.stubs.inProgress

theorem Like.refl (e : Engine) : Like e e := ⟨rfl, fun _ => Iff.rfl⟩

theorem Like.trans {e'' : Engine} (h : Like e e') (h' : Like e' e'') : Like e e'' :=
  ⟨h'.declared.trans h.declared, fun name => (h'.inProgress name).trans (h.inProgress name)⟩

theorem Planned.like {x : EStateM ε Engine α} (hx : Planned x) {a : α} (h : x e = .ok a e') :
    Like e e' := by
  have hunwound := hx.unwound e
  rw [finalState_ok h] at hunwound
  exact ⟨hunwound.declared, hunwound.inProgress⟩

theorem Like.free (h : Like e e') : e'.stubs.free = e.stubs.free := by
  unfold StubLibrary.free
  rw [h.declared]
  have hsame : ∀ name, e'.stubs.inProgress.contains name = e.stubs.inProgress.contains name :=
    fun name => Bool.eq_iff_iff.mpr (h.inProgress name)
  simp only [hsame]

theorem free_le (l : StubLibrary) : l.free ≤ l.declared.size := by
  rw [← Std.TreeMap.length_keys]
  exact List.length_filter_le _ _

/-- While a stub is compiled there is one less to compile. -/
theorem free_marked {name : String} (hdeclared : name ∈ e.stubs.declared)
    (hfree : name ∉ e.stubs.inProgress) : (e.marked name).stubs.free < e.stubs.free := by
  have hkey : name ∈ e.stubs.declared.keys := Std.TreeMap.mem_keys.mpr hdeclared
  have hcontains : e.stubs.inProgress.contains name = false :=
    Bool.eq_false_iff.mpr fun hmem => hfree (Std.TreeSet.mem_iff_contains.mpr hmem)
  have hsplit : ∀ other, (!(e.marked name).stubs.inProgress.contains other) =
      (other != name && !e.stubs.inProgress.contains other) := by
    intro other
    simp only [marked, Std.TreeSet.contains_insert, Bool.not_or]
    congr 1
    by_cases hsame : name = other
    · simp [hsame]
    · have hcompare : (compare name other == .eq) = false := by
        simpa [Std.compare_eq_iff_eq] using hsame
      have hne : (other != name) = true := by simpa using Ne.symm hsame
      rw [hcompare, hne]
      rfl
  unfold StubLibrary.free
  simp only [hsplit]
  change (e.stubs.declared.keys.filter _).length < _
  rw [← List.filter_filter, List.length_filter_lt_length_iff_exists]
  exact ⟨name, List.mem_filter.mpr ⟨hkey, by simp [hcontains]⟩, by simp⟩

/-! ### Requests for a stub -/

section

variable {compile : UnitCompiler} {name : String}

theorem stub_of_compiled {s : Stub} (h : e.stubs.compiled? name = some s) :
    stub compile name e = .ok s e := by
  refine (get_bind _).trans ?_
  rw [h]
  rfl

theorem stub_of_undeclared (hnew : e.stubs.compiled? name = none)
    (h : e.stubs.declared[name]? = none) :
    stub compile name e = .error (.unknownStub name) e := by
  refine (get_bind _).trans ?_
  rw [hnew]
  refine (get_bind _).trans (bind_of_error ?_)
  unfold StubLibrary.source
  rw [h]
  rfl

theorem stub_of_declared {source : StubSource} (hnew : e.stubs.compiled? name = none)
    (h : e.stubs.declared[name]? = some source) :
    stub compile name e = marking name (buildStub compile name source) e := by
  refine (get_bind _).trans ?_
  rw [hnew]
  refine (get_bind _).trans (bind_of_ok ?_)
  unfold StubLibrary.source
  rw [h]
  rfl

end

theorem stubs_of_buildGraph {graph : Except GraphError Graph} {g : Graph}
    (h : buildGraph graph e = .ok g e') : graph = .ok g ∧ e' = e := by
  cases graph with
  | ok found =>
    cases h
    exact ⟨rfl, rfl⟩
  | error err => cases h

/-! ### Nesting -/

theorem stub_congr {compile compile' : UnitCompiler} {name : String}
    (h : ∀ t g, t.stubs.declared = e.stubs.declared → t.stubs.free < e.stubs.free →
      compile g .stub #[] t = compile' g .stub #[] t) :
    stub compile name e = stub compile' name e := by
  cases hnew : e.stubs.compiled? name with
  | some s => rw [stub_of_compiled hnew, stub_of_compiled hnew]
  | none =>
    cases hdeclared : e.stubs.declared[name]? with
    | none => rw [stub_of_undeclared hnew hdeclared, stub_of_undeclared hnew hdeclared]
    | some source =>
      rw [stub_of_declared hnew hdeclared, stub_of_declared hnew hdeclared]
      refine marking_congr fun hfree => withScope_congr ?_
      cases source with
      | host => rfl
      | body build =>
        refine bind_congr rfl fun g t hgraph => bind_congr ?_ fun _ _ _ => rfl
        obtain ⟨-, rfl⟩ := stubs_of_buildGraph hgraph
        have hmem : name ∈ e.stubs.declared :=
          Std.TreeMap.mem_iff_isSome_getElem?.mpr (by rw [hdeclared]; rfl)
        exact h _ g rfl (free_marked hmem hfree)

theorem newCache_congr {compile compile' : UnitCompiler} {kind : CacheKind}
    (h : ∀ t g, t.stubs = e.stubs → InlineCache.dispatchGraph kind [] = .ok g →
      compile g .cache #[] t = compile' g .cache #[] t) :
    newCache compile kind e = newCache compile' kind e := by
  refine withScope_congr (bind_congr rfl fun g t hgraph => bind_congr ?_ fun _ _ _ => rfl)
  obtain ⟨hdispatch, rfl⟩ := stubs_of_buildGraph hgraph
  exact h _ g rfl hdispatch

/-- Two compilers that agree on the stub or the inline cache that a constant may need answer for it in
the same way. -/
theorem resolve_congr {compile compile' : UnitCompiler} {nested : Array (Option Word)} {c : Const}
    (hstub : ∀ t g, t.stubs.declared = e.stubs.declared → t.stubs.free < e.stubs.free →
      compile g .stub #[] t = compile' g .stub #[] t)
    (hcache : ∀ kind t g, c = .cache kind → t.stubs = e.stubs →
      InlineCache.dispatchGraph kind [] = .ok g → compile g .cache #[] t = compile' g .cache #[] t) :
    resolve compile nested c e = resolve compile' nested c e := by
  cases c with
  | stub name => exact bind_congr (stub_congr hstub) fun _ _ _ => rfl
  | cache kind => exact newCache_congr fun t g => hcache kind t g rfl
  | _ => rfl

theorem lowerGraph_eq_ok {graph lowered : Graph} (h : lowerGraph graph e = .ok lowered e') :
    (Lowering.lower graph).error = none ∧ lowered = (Lowering.lower graph).graph := by
  obtain ⟨_, t, -, h⟩ := bind_eq_ok.mp h
  cases herror : (Lowering.lower graph).error with
  | some err =>
    simp only [herror] at h
    exact (throw_eq_ok.mp h).elim
  | none =>
    simp only [herror] at h
    exact ⟨rfl, (pure_eq_ok.mp h).1.symm⟩

theorem like_of_prepare {trace : TraceStages} {graph lowered : Graph} {kind : UnitKind}
    (h : prepare trace graph kind e = .ok lowered e') :
    lowered = (Lowering.lower graph).graph ∧ Like e e' := by
  refine ⟨?_, Planned.like (?_ : Planned (prepare trace graph kind)) h⟩
  · obtain ⟨_, t, -, h⟩ := bind_eq_ok.mp h
    obtain ⟨_, t', -, h⟩ := bind_eq_ok.mp h
    obtain ⟨found, t'', hlower, h⟩ := bind_eq_ok.mp h
    obtain ⟨_, t₃, -, h⟩ := bind_eq_ok.mp h
    obtain ⟨rfl, -⟩ := pure_eq_ok.mp h
    exact (lowerGraph_eq_ok hlower).2
  · exact (plannedTraceDump _ _ _ _).bind fun _ => (plannedTraceDump _ _ _ _).bind fun _ =>
      (plannedLowerGraph _).bind fun _ => (plannedTraceDump _ _ _ _).bind fun _ => .pure _

/-- Two compilers that agree on all that a unit may need compile it in the same way. -/
theorem compileStep_congr {compile compile' : UnitCompiler} (hc : PlansUnits compile)
    {graph : Graph} {kind : UnitKind} {nested : Array (Option Word)}
    (h : ∀ c t, (Lowering.lower graph).graph.Carries c → Like e t →
      resolve compile nested c t = resolve compile' nested c t) :
    compileStep compile graph kind nested e = compileStep compile' graph kind nested e := by
  rw [compileStep_apply, compileStep_apply]
  refine withContext_congr (bind_congr rfl fun trace t htrace => ?_)
  obtain ⟨rfl, rfl⟩ := get_eq_ok.mp htrace
  refine bind_congr rfl fun lowered t hprepare => ?_
  obtain ⟨rfl, hlike⟩ := like_of_prepare hprepare
  refine bind_congr rfl fun t' t'' hget => ?_
  obtain ⟨rfl, rfl⟩ := get_eq_ok.mp hget
  refine bind_congr ?_ fun _ _ _ => rfl
  refine Inquiry.run_congr (I := Like e) (emission_within _ _) h ?_ ⟨hlike.declared, hlike.inProgress⟩
  intro c t w t' hlike' hok
  exact hlike'.trans ((plannedResolve hc nested c).like hok)

/-- On the way down from a unit, compilations are nested less deeply than twice for every stub that
is not in progress; a unit without inline caches of its own gets by with one level less. -/
theorem nested_irrelevant (bottom : UnitCompiler) {nesting : Nat} {graph : Graph} {kind : UnitKind}
    {nested : Array (Option Word)}
    (h : 2 * e.stubs.free + 2 ≤ nesting ∨ 2 * e.stubs.free + 1 ≤ nesting ∧
      (Lowering.lower graph).graph.hasCache = false) :
    compileNested nesting graph kind nested e = compileStep^[nesting] bottom graph kind nested e := by
  induction nesting generalizing e graph kind nested with
  | zero => omega
  | succ nesting ih =>
    rw [compileNested_succ, Function.iterate_succ_apply']
    refine compileStep_congr (plansCompileNested nesting) fun c t hc hlike => ?_
    have hfree := hlike.free
    refine resolve_congr (fun t' g hdeclared hless => ih (.inl (by omega))) ?_
    intro cacheKind t' g hkind hstubs hdispatch
    rcases h with h | ⟨-, hflat⟩
    · refine ih (.inr ⟨?_, dispatchGraph_hasCache hdispatch⟩)
      rw [hstubs]
      omega
    · subst hkind
      exact absurd (Graph.hasCache_of_carries hc) (by simp [hflat])

/-- More nesting than there can be changes nothing. -/
theorem compileNested_eq_of_le {nesting more : Nat} {graph : Graph} {kind : UnitKind}
    {nested : Array (Option Word)} (h : 2 * e.stubs.free + 2 ≤ nesting) (hmore : nesting ≤ more) :
    compileNested more graph kind nested e = compileNested nesting graph kind nested e := by
  rw [nested_irrelevant (compileStep^[more - nesting] (compileNested 0)) (.inl h),
    ← Function.iterate_add_apply, Nat.add_sub_cancel' hmore]
  exact nested_irrelevant _ (.inl (by omega))

theorem compileUnit_apply (graph : Graph) (kind : UnitKind) (nested : Array (Option Word)) :
    compileUnit graph kind nested e = compileNested (maxNesting e) graph kind nested e :=
  get_bind _

theorem maxNesting_eq (e : Engine) : maxNesting e = 2 * e.stubs.declared.size + 3 + 1 := rfl

theorem compileNested_eq_compileUnit {nesting : Nat} {graph : Graph} {kind : UnitKind}
    {nested : Array (Option Word)} (h : 2 * e.stubs.declared.size + 3 ≤ nesting)
    (hle : nesting ≤ maxNesting e) :
    compileNested nesting graph kind nested e = compileUnit graph kind nested e := by
  have hfree := free_le e.stubs
  rw [compileUnit_apply]
  exact (compileNested_eq_of_le (by omega) hle).symm

/-- Compilation of units calls itself for stubs and inline caches. -/
theorem compileUnit_eq_compileStep : compileUnit = compileStep compileUnit := by
  funext graph kind nested e
  rw [compileUnit_apply, maxNesting_eq, compileNested_succ]
  refine compileStep_congr (plansCompileNested _) fun c t _ hlike => resolve_congr ?_ ?_
  · intro t' g hdeclared _
    have hsize : t'.stubs.declared.size = e.stubs.declared.size := by rw [hdeclared, hlike.declared]
    exact compileNested_eq_compileUnit (by rw [hsize]) (by rw [maxNesting_eq, hsize]; omega)
  · intro cacheKind t' g _ hstubs _
    have hsize : t'.stubs.declared.size = e.stubs.declared.size := by rw [hstubs, hlike.declared]
    exact compileNested_eq_compileUnit (by rw [hsize]) (by rw [maxNesting_eq, hsize]; omega)

theorem getStub_eq (name : String) : getStub name e = stub compileUnit name e := by
  refine (get_bind _).trans (stub_congr fun t g hdeclared _ => ?_)
  have hnesting : maxNesting t = maxNesting e := by rw [maxNesting_eq, maxNesting_eq, hdeclared]
  rw [compileUnit_apply, hnesting]

theorem createCache_eq (kind : CacheKind) : createCache kind e = newCache compileUnit kind e := by
  refine (get_bind _).trans (newCache_congr fun t g hstubs _ => ?_)
  have hnesting : maxNesting t = maxNesting e := by rw [maxNesting_eq, maxNesting_eq, hstubs]
  rw [compileUnit_apply, hnesting]

end

end Engine
end ScriptEngine
