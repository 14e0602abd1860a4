import ScriptEngine.Proofs.Engine.Accepted
import ScriptEngine.Proofs.Engine.Planned

/-!
Compilation of scripts. Stubs can be ranked so that each needs only stubs of lower rank; so no stub
needs itself, and compilations are nested less deeply than is allowed. Together with the checks of
code generation, which the graphs of a script pass, this leaves few ways to fail: the source text
has no graphs, there is no more memory, or the back end refuses a function.
-/

namespace ScriptEngine

open Lowering

/-- Errors of what the compiler rests on: of the heap and of the back end. -/
def CompileError.External : CompileError → Prop
  | .backend | .heap _ => True
  | _ => False

namespace StubLibrary

/-- Names of the stubs in an order in which each needs only earlier ones. -/
def ranking : List String := (standardSources.map (·.1)).erase "new" ++ ["new"]

def rank (name : String) : Nat := ranking.idxOf name

end StubLibrary

open StubLibrary

/-- Whether a constant has a word: stubs below some rank do, inline caches if that is above all
ranks, and functions that are known. -/
def Const.resolvable (level : Nat) (known : Nat → Bool) : Const → Bool
  | .stub name => rank name < level && rank name < ranking.length
  | .callback name => Engine.callbackNames.contains name
  | .function index => known index
  | .cache _ => ranking.length < level
  | .cond _ | .binary _ | .unary _ => false
  | _ => true

/-- Whether a graph can be lowered and passes the checks of code generation. -/
def Graph.compiles (level : Nat) (known : Nat → Bool) (g : Graph) : Bool :=
  (lower g).error.isNone && Outline.accepts (Const.resolvable level known) (lower g).graph

def Graph.compilesAs (level : Nat) (graph : Except GraphError Graph) : Bool :=
  match graph with
  | .ok g => g.compiles level fun _ => false
  | .error _ => false

/-- Whether a stub compiles, with stubs of lower rank. -/
def StubSource.compiles (name : String) : StubSource → Bool
  | .host => true
  | .body build => Graph.compilesAs (rank name) (Builder.build name build)

/-! ### The standard stubs -/

theorem standardSources_compile :
    (standardSources.all fun entry => entry.2.compiles entry.1) = true := by decide +kernel

theorem dispatchGraph_compiles (kind : CacheKind) :
    Graph.compilesAs ranking.length (InlineCache.dispatchGraph kind []) = true := by
  cases kind <;> decide +kernel

theorem standardSources_distinct : (standardSources.map (·.1)).Nodup := by decide +kernel

/-- Every ranked stub is declared and compiles. -/
theorem source_of_rank {name : String} (h : rank name < ranking.length) : ∃ source,
    standard.declared[name]? = some source ∧ source.compiles name = true := by
  have hmem : name ∈ standardSources.map (·.1) := by
    have hname : name ∈ ranking := List.idxOf_lt_length_iff.mp h
    rcases List.mem_append.mp hname with hname | hname
    · exact List.mem_of_mem_erase hname
    · obtain rfl := List.mem_singleton.mp hname
      decide +kernel
  obtain ⟨⟨name', source⟩, hentry, rfl⟩ := List.mem_map.mp hmem
  refine ⟨source, ?_, List.all_eq_true.mp standardSources_compile _ hentry⟩
  refine Std.TreeMap.getElem?_ofList_of_mem Std.ReflCmp.compare_self ?_ hentry
  refine (List.pairwise_map.mp standardSources_distinct).imp fun hne hsame => ?_
  exact hne (Std.compare_eq_iff_eq.mp hsame)

namespace Engine

open State

/-! ### Engines with the standard stubs -/

/-- The stubs are the standard ones, and some of them are in progress. -/
structure Library (S : List String) (e : Engine) : Prop where
  declared : e.stubs.declared = standard.declared
  inProgress : ∀ name, name ∈ e.stubs.inProgress ↔ name ∈ S

theorem Library.of_stubs {S : List String} {e e' : Engine} (h : Library S e)
    (hs : e'.stubs = e.stubs) : Library S e' := by
  obtain ⟨hdeclared, hprogress⟩ := h
  exact ⟨by rw [hs]; exact hdeclared, by rw [hs]; exact hprogress⟩

section

variable {α β : Type} {I : Engine → Prop} {F : CompileError → Prop} {Q : α → Prop} {R : β → Prop}
  {S : List String}

theorem Keeps.get_bind {next : Engine → CompileM β} (h : ∀ e, I e → Keeps I F (next e) R) :
    Keeps I F (get >>= next) R := fun e he => h e he e he

theorem Keeps.modify {f : Engine → Engine} {Q : PUnit → Prop} (hf : ∀ e, I e → I (f e))
    (h : Q ⟨⟩) : Keeps I F (modify f) Q := by
  intro e he
  refine ⟨fun u e' hok => ?_, fun err e' herror => by cases herror⟩
  cases hok
  exact ⟨hf e he, h⟩

theorem keeps_onHeap {act : HeapM α} :
    Keeps (Library S) CompileError.External (onHeap .heap act) fun _ => True := by
  intro e he
  unfold onHeap EStateM.run
  simp only
  cases act e.heap with
  | ok a heap =>
    refine ⟨fun b e' hok => ?_, fun err e' herror => by cases herror⟩
    cases hok
    exact ⟨he.of_stubs rfl, trivial⟩
  | error err heap =>
    refine ⟨fun b e' hok => (by cases hok), fun err' e' herror => ?_⟩
    cases herror
    trivial

theorem keeps_emitEvent {event : Event} :
    Keeps (Library S) F (emitEvent event) fun _ => True :=
  Keeps.modify (fun _ he => he.of_stubs rfl) trivial

theorem keeps_traceDump {traced : Bool} {graph : Graph} {kind : UnitKind} {stage : String} :
    Keeps (Library S) F (traceDump traced graph kind stage) fun _ => True := by
  unfold traceDump
  split
  · exact keeps_emitEvent
  · exact Keeps.pure trivial

theorem leaveScope_ok (id : Nat) (e : Engine) : ∃ e',
    (leaveScope id : CompileM Unit) e = .ok () e' ∧ e'.stubs = e.stubs := by
  unfold leaveScope
  split
  · exact ⟨_, rfl, rfl⟩
  · exact ⟨_, rfl, rfl⟩

theorem leaveContext_ok (depth : Nat) (e : Engine) : ∃ e',
    (leaveContext depth : CompileM Unit) e = .ok () e' ∧ e'.stubs = e.stubs := ⟨_, rfl, rfl⟩

/-- What is run inside a bracket that does not touch the stubs keeps them as it does outside. -/
theorem keeps_bracket {bracketed : CompileM α} (act : Engine → CompileM α)
    (enter : Engine → Engine) (henter : ∀ e, (enter e).stubs = e.stubs)
    (h : ∀ e, Keeps (Library S) F (act e) Q)
    (hok : ∀ e a t, act e (enter e) = .ok a t → ∃ t', bracketed e = .ok a t' ∧ t'.stubs = t.stubs)
    (herror : ∀ e err t, act e (enter e) = .error err t → ∃ t', bracketed e = .error err t') :
    Keeps (Library S) F bracketed Q := by
  intro e he
  obtain ⟨hact, hfail⟩ := h e (enter e) (he.of_stubs (henter e))
  cases hrun : act e (enter e) with
  | ok a t =>
    obtain ⟨t', hbracketed, hstubs⟩ := hok e a t hrun
    obtain ⟨ht, ha⟩ := hact a t hrun
    rw [hbracketed]
    refine ⟨fun b e' hb => ?_, fun err e' herr => by cases herr⟩
    cases hb
    exact ⟨ht.of_stubs hstubs, ha⟩
  | error err t =>
    obtain ⟨t', hbracketed⟩ := herror e err t hrun
    rw [hbracketed]
    refine ⟨fun b e' hb => (by cases hb), fun err' e' herr => ?_⟩
    cases herr
    exact hfail err t hrun

theorem keeps_withScope {kind : ScopeKind} {act : CompileM α} (h : Keeps (Library S) F act Q) :
    Keeps (Library S) F (withScope kind act) Q := by
  have henter : ∀ e, (enterScope kind : CompileM Nat) e =
      .ok e.heap.scopes.nextId (e.inScope kind) := fun _ => rfl
  refine keeps_bracket (fun _ => act) (inScope · kind) (fun _ => rfl) (fun _ => h) ?_ ?_
  · intro e a t hok
    obtain ⟨t', hleave, hstubs⟩ := leaveScope_ok e.heap.scopes.nextId t
    refine ⟨t', (bind_of_ok (henter e)).trans ?_, hstubs⟩
    simp only [EStateM.run, hok]
    exact seqRight_of_ok hleave
  · intro e err t herror
    obtain ⟨t', hleave, -⟩ := leaveScope_ok e.heap.scopes.nextId t
    refine ⟨t', (bind_of_ok (henter e)).trans ?_⟩
    simp only [EStateM.run, herror]
    exact seqRight_of_ok hleave

theorem keeps_withContext {context : CompileContext} {act : Nat → CompileM α}
    (h : ∀ depth, Keeps (Library S) F (act depth) Q) :
    Keeps (Library S) F (withContext context act) Q := by
  refine keeps_bracket (fun e => act (e.contexts.depth + 1)) (inContext · context)
    (fun _ => rfl) (fun _ => h _) ?_ ?_
  · intro e a t hok
    obtain ⟨t', hleave, hstubs⟩ := leaveContext_ok (e.contexts.depth + 1) t
    refine ⟨t', ?_, hstubs⟩
    simp only [inContext, ContextStack.enter] at hok
    simp only [withContext, ContextStack.enter, EStateM.run, hok]
    exact seqRight_of_ok hleave
  · intro e err t herror
    obtain ⟨t', hleave, -⟩ := leaveContext_ok (e.contexts.depth + 1) t
    refine ⟨t', ?_⟩
    simp only [inContext, ContextStack.enter] at herror
    simp only [withContext, ContextStack.enter, EStateM.run, herror]
    exact seqRight_of_ok hleave

end

/-! ### Units -/

/-- Words of the functions that are known. -/
def known (nested : Array (Option Word)) (index : Nat) : Bool := nested[index]?.join.isSome

/-- Whether graphs are compiled, as long as they need only what is below a level. -/
def Serves (S : List String) (level : Nat) (compile : UnitCompiler) : Prop :=
  ∀ graph kind nested, graph.compiles level (known nested) = true →
    Keeps (Library S) CompileError.External (compile graph kind nested) fun _ => True

section

variable {S : List String} {level : Nat} {compile : UnitCompiler}

theorem keeps_compileAs {β : Type} {R : β → Prop} (h : Serves S level compile)
    {graph : Except GraphError Graph} (hg : Graph.compilesAs level graph = true) (kind : UnitKind)
    {next : Word → CompileM β}
    (hnext : ∀ code, Keeps (Library S) CompileError.External (next code) R) :
    Keeps (Library S) CompileError.External
      (buildGraph graph >>= fun g => compile g kind #[] >>= next) R := by
  cases graph with
  | error err => cases hg
  | ok g =>
    have hknown : known #[] = fun _ => false := by
      funext index
      simp [known]
    have hcompile : Keeps (Library S) CompileError.External (compile g kind #[]) fun _ => True :=
      h g kind #[] (by rw [hknown]; exact hg)
    exact hcompile.bind fun code _ => hnext code

theorem keeps_buildStub {name : String} {source : StubSource}
    (h : Serves S (rank name) compile) (hs : source.compiles name = true) :
    Keeps (Library S) CompileError.External (buildStub compile name source) fun _ => True := by
  refine keeps_withScope ?_
  cases source with
  | host => exact keeps_onHeap.bind fun _ _ => keeps_onHeap.bind fun _ _ => Keeps.pure trivial
  | body build =>
    exact keeps_compileAs h hs .stub fun _ => keeps_onHeap.bind fun _ _ => Keeps.pure trivial

theorem keeps_marking {F : CompileError → Prop} {name : String} {build : CompileM Stub}
    (hfree : name ∉ S) (h : Keeps (Library (name :: S)) F build fun _ => True) :
    Keeps (Library S) F (marking name build) fun _ => True := by
  intro e he
  have free : name ∉ e.stubs.inProgress := fun hmem => hfree ((he.inProgress name).mp hmem)
  have hmarked : Library (name :: S) (e.marked name) := by
    refine ⟨he.declared, fun other => ?_⟩
    simp only [marked, Std.TreeSet.mem_insert, he.inProgress, List.mem_cons,
      Std.compare_eq_iff_eq]
    rw [eq_comm]
  obtain ⟨hok, herror⟩ := h (e.marked name) hmarked
  cases hbuild : build (e.marked name) with
  | ok stub t =>
    rw [marking_ok free hbuild]
    refine ⟨fun stub' e' hrun => ?_, fun err e' hrun => by cases hrun⟩
    cases hrun
    obtain ⟨ht, -⟩ := hok stub t hbuild
    refine ⟨⟨ht.declared, fun other => ?_⟩, trivial⟩
    simp only [StubLibrary.finish, Std.TreeSet.mem_erase, ht.inProgress, List.mem_cons,
      ne_eq, Std.compare_eq_iff_eq]
    constructor
    · rintro ⟨hne, rfl | hmem⟩
      · exact absurd rfl hne
      · exact hmem
    · intro hmem
      exact ⟨fun hsame => hfree (hsame ▸ hmem), .inr hmem⟩
  | error err t =>
    rw [marking_error free hbuild]
    refine ⟨fun stub' e' hrun => (by cases hrun), fun err' e' hrun => ?_⟩
    cases hrun
    exact herror err t hbuild

/-- A stub that is not in progress is compiled with itself in progress. -/
theorem keeps_stub {name : String} (hname : rank name < ranking.length) (hfree : name ∉ S)
    (h : Serves (name :: S) (rank name) compile) :
    Keeps (Library S) CompileError.External (stub compile name) fun _ => True := by
  obtain ⟨source, hsource, hcompiles⟩ := source_of_rank hname
  have hbuild := keeps_buildStub h hcompiles
  refine Keeps.get_bind fun e _ => ?_
  split
  · exact Keeps.pure trivial
  refine Keeps.get_bind fun e he => ?_
  have hfound : e.stubs.source name = .ok source := by
    unfold StubLibrary.source
    rw [he.declared, hsource]
  rw [hfound]
  refine Keeps.bind (Q := fun found => found = source) (Keeps.pure rfl) fun found hsame => ?_
  subst found
  exact keeps_marking hfree hbuild

theorem keeps_newCache (h : Serves S ranking.length compile) (kind : CacheKind) :
    Keeps (Library S) CompileError.External (newCache compile kind) fun _ => True := by
  refine keeps_withScope (keeps_compileAs h (dispatchGraph_compiles kind) .cache fun code => ?_)
  refine keeps_onHeap.bind fun function _ => ?_
  refine Keeps.bind (Keeps.modify (Q := fun _ => True) (fun e he => ?_) trivial) fun _ _ =>
    Keeps.pure trivial
  exact he.of_stubs rfl

/-- Stubs in progress have a higher rank than everything that is still needed. -/
theorem resolves_resolve {nested : Array (Option Word)} (hS : ∀ name ∈ S, level ≤ rank name)
    (hstub : ∀ name, rank name < level → Serves (name :: S) (rank name) compile)
    (hcache : ranking.length < level → Serves S ranking.length compile) :
    Emission.Resolves (Library S) CompileError.External (Const.resolvable level (known nested))
      (resolve compile nested) := by
  refine ⟨rfl, fun _ => rfl, fun c hc => ?_⟩
  cases c with
  | raw n => exact Keeps.pure trivial
  | smi n =>
    simp only [resolve]
    split
    · exact Keeps.pure trivial
    · exact keeps_onHeap
  | number n => exact keeps_onHeap
  | text s => exact keeps_onHeap
  | bool b => exact Keeps.get_bind fun _ _ => Keeps.pure trivial
  | undefined => exact Keeps.get_bind fun _ _ => Keeps.pure trivial
  | null => exact Keeps.get_bind fun _ _ => Keeps.pure trivial
  | hole => exact Keeps.get_bind fun _ _ => Keeps.pure trivial
  | heap value => exact Keeps.pure trivial
  | weak value => exact Keeps.pure trivial
  | stub name =>
    obtain ⟨hrank, hname⟩ : rank name < level ∧ rank name < ranking.length := by
      simpa [Const.resolvable] using hc
    have hfree : name ∉ S := fun hmem => absurd (hS name hmem) (by omega)
    exact (keeps_stub hname hfree (hstub name hrank)).bind fun _ _ => Keeps.pure trivial
  | callback name =>
    have hmem : name ∈ callbackNames := by simpa [Const.resolvable] using hc
    obtain ⟨id, hid⟩ : ∃ id, callbackNames.idxOf? name = some id :=
      Option.isSome_iff_exists.mp (by simpa using hmem)
    have hfound : callbackId name = .ok id := by rw [callbackId, hid]
    simp only [resolve, hfound]
    exact Keeps.bind (Q := fun _ => True) (Keeps.pure trivial) fun _ _ => Keeps.pure trivial
  | function index =>
    obtain ⟨code, hcode⟩ := Option.isSome_iff_exists.mp hc
    simp only [resolve, hcode]
    exact Keeps.pure trivial
  | shape kind => exact Keeps.get_bind fun _ _ => Keeps.pure trivial
  | cache kind => exact keeps_newCache (hcache (by simpa [Const.resolvable] using hc)) kind
  | cond c => cases hc
  | binary op => cases hc
  | unary op => cases hc

/-- A graph is lowered to the graph that lowering gives. -/
theorem keeps_lowerGraph {F : CompileError → Prop} {g : Graph} (h : (lower g).error = none) :
    Keeps (Library S) F (lowerGraph g) fun g' => g' = (lower g).graph := by
  unfold lowerGraph
  simp only [h]
  refine Keeps.bind (Q := fun _ => True) ?_ fun _ _ => Keeps.pure rfl
  generalize (lower g).reports = reports
  induction reports with
  | nil => exact Keeps.pure trivial
  | cons report rest ih => exact keeps_emitEvent.bind fun _ _ => ih

theorem keeps_defineRoutine (program : Program) :
    Keeps (Library S) CompileError.External (defineRoutine program) fun _ => True := by
  unfold defineRoutine
  split
  · exact Keeps.throw trivial
  · refine Keeps.get_bind fun _ _ => ?_
    refine Keeps.bind (Keeps.modify (Q := fun _ => True) (fun e he => ?_) trivial) fun _ _ =>
      Keeps.pure trivial
    exact he.of_stubs rfl

/-- Compilations that may be nested more often than their level says succeed, unless something
outside fails. -/
theorem serves_compileNested (nesting level : Nat) (S : List String) (hn : level < nesting)
    (hS : ∀ name ∈ S, level ≤ rank name) : Serves S level (compileNested nesting) := by
  induction nesting generalizing level S with
  | zero => omega
  | succ nesting ih =>
    intro graph kind nested hgraph
    simp only [Graph.compiles, Bool.and_eq_true, Option.isNone_iff_eq_none] at hgraph
    obtain ⟨herror, haccepts⟩ := hgraph
    have hresolves : Emission.Resolves (Library S) CompileError.External
        (Const.resolvable level (known nested)) (resolve (compileNested nesting) nested) :=
      resolves_resolve hS (fun name hname => ih (rank name) (name :: S) (by omega) fun other hother => by
        rcases List.mem_cons.mp hother with rfl | hother
        · exact le_rfl
        · exact hname.le.trans (hS other hother))
      (fun hlevel => ih ranking.length S (by omega) fun name hname =>
        hlevel.le.trans (hS name hname))
    refine Keeps.get_bind fun _ _ => keeps_withContext fun depth => Keeps.get_bind fun _ _ => ?_
    refine keeps_traceDump.bind fun _ _ => keeps_traceDump.bind fun _ _ => ?_
    refine (keeps_lowerGraph herror).bind fun lowered hlowered => ?_
    subst lowered
    refine keeps_traceDump.bind fun _ _ => Keeps.get_bind fun _ _ => ?_
    refine (keeps_emitProgram hresolves haccepts).bind fun emitted _ => ?_
    have hrest : ∀ event, Keeps (Library S) CompileError.External (do
        let entry ← defineRoutine emitted.1
        emitEvent event
        onHeap .heap (Heap.allocCode entry 0 emitted.2)) fun _ => True := fun event =>
      (keeps_defineRoutine emitted.1).bind fun _ _ => keeps_emitEvent.bind fun _ _ => keeps_onHeap
    simp only
    split
    · exact keeps_emitEvent.bind fun _ _ => hrest _
    · exact hrest _

/-! ### Scripts -/

theorem size_declared : standard.declared.size = ranking.length := by
  rw [standard, Std.TreeMap.size_ofList]
  · decide +kernel
  · refine (List.pairwise_map.mp standardSources_distinct).imp fun hne hsame => ?_
    exact hne (Std.compare_eq_iff_eq.mp hsame)

theorem keeps_compileUnit {graph : Graph} {kind : UnitKind} {nested : Array (Option Word)}
    (h : graph.compiles (ranking.length + 1) (known nested) = true) :
    Keeps (Library []) CompileError.External (compileUnit graph kind nested) fun _ => True := by
  refine Keeps.get_bind fun e he => ?_
  refine serves_compileNested _ (ranking.length + 1) [] ?_ (by simp) graph kind nested h
  rw [maxNesting, he.declared, size_declared]
  omega

theorem allows_resolvable {functions : Nat → Bool} {low high : Nat}
    (h : ∀ k, low < k → k < high → functions k = true) :
    Outline.Allows (Const.resolvable (ranking.length + 1) functions) low high := by
  refine ⟨fun c hc => ?_, h, fun name hname => ?_, fun kind => by simp [Const.resolvable]⟩
  · cases c with
    | smi | number | text | bool | undefined | null => rfl
    | _ => cases hc
  · have hall : (calledStubs.all fun name => rank name < ranking.length) = true := by
      decide +kernel
    have hrank : rank name < ranking.length := by simpa using List.all_eq_true.mp hall name hname
    simp only [Const.resolvable, Bool.and_eq_true, decide_eq_true_eq]
    omega

/-- A graph of a script compiles once the graphs after it are compiled. -/
theorem compiles_of_graphsOf {list : List Syntax.Stmt} {graphs : List Graph} {k : Nat} {g : Graph}
    (h : Construction.graphsOf list = .ok graphs) (hk : graphs[k]? = some g)
    {functions : Nat → Bool} (hf : ∀ j, k < j → j < graphs.length → functions j = true) :
    g.compiles (ranking.length + 1) functions = true := by
  obtain ⟨hsketch, hrefers⟩ := Graph.sketch_of_graphsOf h hk
  obtain ⟨herror, hlowered, hrefers', hentry⟩ := lower_lowered hsketch hrefers
  have haccepts := Outline.accepts_of_lowered hlowered (allows_resolvable hf) hrefers' hentry
  simp [Graph.compiles, herror, haccepts]

/-- Compile one graph of a script and keep its code. -/
def compileEntry (codes : Array (Option Word)) (entry : Graph × Nat) :
    CompileM (Array (Option Word)) := do
  let code ← compileUnit entry.1 .function codes
  return codes.setIfInBounds entry.2 (some code)

theorem known_set {codes : Array (Option Word)} {code : Word} {j k : Nat} (hj : j < codes.size)
    (h : k = j ∨ known codes k = true) : known (codes.setIfInBounds j (some code)) k = true := by
  unfold known at h ⊢
  by_cases hk : k = j
  · subst hk
    simp [hj]
  · rw [Array.getElem?_setIfInBounds_ne (Ne.symm hk)]
    exact h.resolve_left hk

/-- When it is the turn of a graph, the graphs after it are compiled. -/
theorem keeps_entries {list : List Syntax.Stmt} {graphs : List Graph}
    (h : Construction.graphsOf list = .ok graphs) (n : Nat) (codes : Array (Option Word))
    (hn : n ≤ graphs.length) (hsize : codes.size = graphs.length)
    (hknown : ∀ k, n ≤ k → k < graphs.length → known codes k = true) :
    Keeps (Library []) CompileError.External
      ((graphs.take n).zipIdx.reverse.foldlM compileEntry codes)
      fun codes' => ∀ k, k < graphs.length → known codes' k = true := by
  induction n generalizing codes with
  | zero =>
    refine Keeps.pure fun k hk => hknown k (by omega) hk
  | succ n ih =>
    have hsplit : (graphs.take (n + 1)).zipIdx.reverse =
        (graphs[n], n) :: (graphs.take n).zipIdx.reverse := by
      rw [List.take_succ_eq_append_getElem (by omega), List.zipIdx_append, List.reverse_append]
      simp [List.length_take, Nat.min_eq_left (Nat.le_of_succ_le hn)]
    rw [hsplit, List.foldlM_cons]
    have hgraph : graphs[n].compiles (ranking.length + 1) (known codes) = true :=
      compiles_of_graphsOf h (List.getElem?_eq_getElem (by omega)) fun j hj hlt =>
        hknown j (by omega) hlt
    refine Keeps.bind (Q := fun codes' => codes'.size = graphs.length ∧
      ∀ k, n ≤ k → k < graphs.length → known codes' k = true) ?_ ?_
    · refine (keeps_compileUnit hgraph).bind fun code _ => Keeps.pure ⟨by simpa using hsize, ?_⟩
      intro k hk hlt
      refine known_set (by omega) ?_
      by_cases he : k = n
      · exact .inl he
      · exact .inr (hknown k (by omega) hlt)
    · rintro codes' ⟨hsize', hknown'⟩
      exact ih codes' (by omega) hsize' hknown'

theorem keeps_compileScript {list : List Syntax.Stmt} {graphs : List Graph}
    (h : Construction.graphsOf list = .ok graphs) :
    Keeps (Library []) CompileError.External (compileScript graphs.toArray) fun _ => True := by
  have hlength := Graph.length_of_graphsOf h
  have hentries := keeps_entries h graphs.length (Array.replicate graphs.length none) le_rfl
    (by simp) fun k hk hlt => by omega
  rw [List.take_length] at hentries
  refine keeps_withScope (hentries.bind fun codes hcodes => ?_)
  obtain ⟨code, hcode⟩ := Option.isSome_iff_exists.mp (hcodes 0 hlength)
  rw [hcode]
  exact Keeps.pure trivial

end

/-- An engine between two requests: it has the standard stubs, and nothing is being compiled. -/
structure Ready (e : Engine) : Prop where
  idle : e.Idle
  declared : e.stubs.declared = standard.declared

theorem Ready.library {e : Engine} (h : e.Ready) : Library [] e :=
  ⟨h.declared, fun name => by simp [h.idle.inProgress name]⟩

theorem Ready.unwound {e e' : Engine} (h : e.Ready) (hu : Unwound e e') : e'.Ready := by
  refine ⟨⟨?_, fun name => ?_⟩, hu.declared.trans h.declared⟩
  · rw [hu.contexts]
    exact h.idle.contexts
  · rw [hu.inProgress]
    exact h.idle.inProgress name

/-- A new engine is ready. -/
theorem ready_create {config : Config} {e : Engine} (h : create config = .ok e) : e.Ready := by
  unfold create at h
  cases hheap : Heap.create config.heap with
  | error err =>
    rw [hheap] at h
    cases h
  | ok heap =>
    simp only [hheap, pure_bind] at h
    split at h
    · rename_i hrun
      cases h
      have hstart : Ready { config, heap, stubs := standard } :=
        ⟨⟨rfl, fun _ => Std.TreeSet.not_mem_emptyc⟩, rfl⟩
      refine hstart.unwound ?_
      rw [← finalState_ok hrun]
      refine Planned.unwound ?_ _
      exact .bind (.onHeap _ fun _ => Heap.rooting_newGlobal) fun _ =>
        .bind (.onHeap _ fun _ => Heap.rooting_root _) fun _ =>
          .bind .assign fun _ => plannedInstallBuiltins
    · cases h

/-- An engine is ready again after whatever it was asked. -/
theorem Ready.request {e : Engine} (h : e.Ready) (request : Request) :
    (finalState request.act e).Ready := h.unwound (request.planned.unwound e)

/-- Code generation of a lowered graph does not fail by itself. -/
theorem emitProgram_ok {g : Graph} {allowed : Const → Bool} {resolve : Const → CompileM Word}
    {trapOnEntry : Bool} (hundefined : allowed .undefined = true)
    (hbool : ∀ b, allowed (.bool b) = true) (h : Outline.accepts allowed g = true)
    (hresolve : ∀ c e, ∃ w e', resolve c e = .ok w e') (e : Engine) :
    ∃ result e', emitProgram ⟨g, resolve, trapOnEntry⟩ e = .ok result e' := by
  have hwords : ∀ c, Keeps (fun _ => True) (fun _ => False) (resolve c) fun _ => True := by
    intro c e _
    obtain ⟨w, e', hok⟩ := hresolve c e
    rw [hok]
    exact ⟨by simp, by simp⟩
  have hkeeps : Keeps (fun _ => True) (fun _ => False)
      (emitProgram ⟨g, resolve, trapOnEntry⟩) fun _ => True :=
    keeps_emitProgram ⟨hundefined, hbool, fun c _ => hwords c⟩ h
  cases hrun : emitProgram ⟨g, resolve, trapOnEntry⟩ e with
  | ok result e' => exact ⟨result, e', rfl⟩
  | error err e' => exact ((hkeeps e trivial).2 err e' hrun).elim

/-- Compilation makes no mistakes of its own. Every graph of a script is lowered and passes all
checks of code generation, whatever words its constants have; and when an engine that is ready
compiles a source text, it fails only if the text has no graphs, or if the heap or the back end
fails. So no stub, callback or function is missing, no stub needs itself, and compilations are not
nested too deeply. -/
theorem compile_fails_outside (source : String) :
    (∀ graphs, Construction.construct source = .ok graphs → ∀ g ∈ graphs,
      (lower g).error = none ∧ ∀ (resolve : Const → CompileM Word) (trapOnEntry : Bool) (e : Engine),
        (∀ c e, ∃ w e', resolve c e = .ok w e') →
          ∃ result e', emitProgram ⟨(lower g).graph, resolve, trapOnEntry⟩ e = .ok result e') ∧
    ∀ e : Engine, e.Ready → ∀ err e', compile source e = .error err e' →
      (∃ error, Construction.construct source = .error error ∧ err = .source error) ∨
        err.External := by
  constructor
  · intro graphs h g hg
    unfold Construction.construct at h
    split at h
    · obtain ⟨k, hk, rfl⟩ := List.getElem_of_mem hg
      have hcompiles : graphs[k].compiles (ranking.length + 1) (fun _ => true) = true :=
        compiles_of_graphsOf h (List.getElem?_eq_getElem hk) fun _ _ _ => rfl
      simp only [Graph.compiles, Bool.and_eq_true, Option.isNone_iff_eq_none] at hcompiles
      refine ⟨hcompiles.1, fun resolve trapOnEntry e hresolve => ?_⟩
      exact emitProgram_ok rfl (fun _ => rfl) hcompiles.2 hresolve e
    · cases h
  · intro e he err e' hrun
    unfold compile at hrun
    cases hsource : Construction.construct source with
    | error error =>
      rw [hsource] at hrun
      cases hrun
      exact .inl ⟨error, rfl, rfl⟩
    | ok graphs =>
      rw [hsource] at hrun
      unfold Construction.construct at hsource
      split at hsource
      · have hkeeps : Keeps (Library []) CompileError.External (do
            let code ← compileScript graphs.toArray
            let function ← onHeap .heap (Heap.allocFunction code)
            onHeap .heap (Heap.root function)
            return function) fun _ => True :=
          (keeps_compileScript hsource).bind fun _ _ => keeps_onHeap.bind fun _ _ =>
            keeps_onHeap.bind fun _ _ => Keeps.pure trivial
        exact .inr ((hkeeps e he.library).2 err e' hrun)
      · cases hsource

/-- A script with a nested function, a branch, a call and property accesses. -/
def nestedSource : String :=
  "function f(a) { if (a) return [a]; return new C(a).b } x = f(y ? 1 : 2)"

theorem nestedSource_fails_outside :
    ∃ graphs, Construction.construct nestedSource = .ok graphs ∧
      graphs.map (·.blocks.size) = [4, 4] ∧ (∀ g ∈ graphs, (lower g).error = none) ∧
      Ready { stubs := standard } ∧
      ∀ err e', compile nestedSource { stubs := standard } = .error err e' → err.External := by
  have hsizes : (Construction.construct nestedSource).toOption.map
      (·.map (·.blocks.size)) = some [4, 4] := by decide +kernel
  have hready : Ready { stubs := standard } :=
    ⟨⟨rfl, fun _ => Std.TreeSet.not_mem_emptyc⟩, rfl⟩
  have hfails := compile_fails_outside nestedSource
  cases hg : Construction.construct nestedSource with
  | error e =>
    rw [hg] at hsizes
    cases hsizes
  | ok graphs =>
    rw [hg] at hsizes
    refine ⟨graphs, rfl, Option.some.inj hsizes, fun g hmem => (hfails.1 graphs hg g hmem).1, hready,
      fun err e' hrun => ?_⟩
    refine (hfails.2 _ hready err e' hrun).resolve_left ?_
    rintro ⟨error, herror, -⟩
    rw [hg] at herror
    cases herror

end Engine
end ScriptEngine
