import ScriptEngine.Proofs.Engine.Needs
import ScriptEngine.Proofs.Heap.Contents

/-!
What compilation keeps of a heap. All that it does to a heap is to make strings, numbers, code objects
and functions of them; so a relation of heaps that these keep holds from the start of any compilation
to its end, whether it succeeds or fails.
-/

namespace ScriptEngine

open State

namespace Heap

/-- What a heap keeps, whatever is done to it: values that exist from the start, and strings. -/
structure Retains (h h' : Heap) : Prop extends Kept h h' where
  strings : ∀ (text : String) w, h.strings[text]? = some w → h'.strings[text]? = some w

theorem Retains.refl (h : Heap) : Retains h h := ⟨.refl h, fun _ _ hw => hw⟩

theorem Retains.trans {h h' h'' : Heap} (first : Retains h h') (second : Retains h' h'') : Retains h h'' :=
  ⟨first.toKept.trans second.toKept, fun _ _ hw => second.strings _ _ (first.strings _ _ hw)⟩

theorem Quiet.retains {h h' : Heap} (quiet : Quiet h h') : Retains h h' :=
  ⟨quiet.toKept, fun _ _ hw => by rwa [quiet.strings]⟩

/-! ### Runs that leave strings and transitions alone -/

/-- A run that keeps the values that exist from the start, the strings and the transitions. -/
def Steady {α : Type} (act : HeapM α) (h : Heap) : Prop := Quiet h (finalState act h)

section

variable {α β : Type} {h t : Heap} {x : HeapM α} {f : α → HeapM β}

theorem Steady.bind (hx : Steady x h) (hf : ∀ a t, Steady (f a) t) : Steady (x >>= f) h := by
  refine finalState_bind (P := fun t => Quiet h t) (fun a t hok => ?_) fun e t herror => ?_
  · exact (finalState_ok hok ▸ hx : Quiet h t).trans (hf a t)
  · exact finalState_error herror ▸ hx

theorem Steady.pure (a : α) : Steady (Pure.pure a : HeapM α) h := .refl h

theorem Steady.throw (e : HeapError) : Steady (throw e : HeapM α) h := .refl h

theorem Steady.get_bind {f : Heap → HeapM β} (hf : Steady (f h) h) : Steady (get >>= f) h := hf

theorem Steady.modify {g : Heap → Heap} (same : Quiet h (g h)) : Steady (modify g : HeapM Unit) h := same

theorem Steady.set_bind {f : PUnit → HeapM β} (same : Quiet h t) (hf : Steady (f ⟨⟩) t) :
    Steady (set t >>= f) h := same.trans hf

end

variable {h : Heap}

theorem steady_write (object : Word) (offset : Nat) (value : Word) : Steady (write object offset value) h :=
  .modify ⟨⟨rfl, rfl, rfl, rfl, rfl, rfl⟩, rfl, rfl⟩

theorem steady_root (value : Word) : Steady (root value) h := .modify ⟨⟨rfl, rfl, rfl, rfl, rfl, rfl⟩, rfl, rfl⟩

theorem steady_allocYoung (shape : Word) (size : Nat) : Steady (allocYoung shape size) h := by
  refine Steady.get_bind ?_
  split
  · exact .throw _
  · exact .set_bind ⟨⟨rfl, rfl, rfl, rfl, rfl, rfl⟩, rfl, rfl⟩ ((steady_write _ _ _).bind fun _ _ => .pure _)

theorem steady_allocOld (shape : Word) (size : Nat) : Steady (allocOld shape size) h := by
  refine Steady.get_bind ?_
  split
  · exact .throw _
  · exact .set_bind ⟨⟨rfl, rfl, rfl, rfl, rfl, rfl⟩, rfl, rfl⟩ ((steady_write _ _ _).bind fun _ _ => .pure _)

theorem steady_allocStore (words : Nat) : Steady (allocStore words) h :=
  .get_bind ((steady_allocYoung _ _).bind fun _ _ => (steady_write _ _ _).bind fun _ _ =>
    (Steady.modify ⟨⟨rfl, rfl, rfl, rfl, rfl, rfl⟩, rfl, rfl⟩).bind fun _ _ => .pure _)

theorem steady_number (n : Double) : Steady (number n) h := by
  unfold number
  split
  · exact .pure _
  · exact .get_bind ((steady_allocYoung _ _).bind fun _ _ => (steady_write _ _ _).bind fun _ _ => .pure _)

theorem steady_allocCode (entry length : Nat) (record : CodeRecord) :
    Steady (allocCode entry length record) h :=
  .get_bind ((steady_allocOld _ _).bind fun _ _ => .get_bind
    ((Steady.modify ⟨⟨rfl, rfl, rfl, rfl, rfl, rfl⟩, rfl, rfl⟩).bind fun _ _ => (steady_write _ _ _).bind fun _ _ =>
      (steady_write _ _ _).bind fun _ _ => (steady_write _ _ _).bind fun _ _ =>
        (steady_root _).bind fun _ _ => .pure _))

theorem steady_allocBareFunction (code instanceShape : Word) :
    Steady (allocBareFunction code instanceShape) h :=
  .get_bind ((steady_allocYoung _ _).bind fun _ _ => (steady_allocStore _).bind fun _ _ =>
    (steady_write _ _ _).bind fun _ _ => (steady_write _ _ _).bind fun _ _ =>
      (steady_write _ _ _).bind fun _ _ => .pure _)

theorem steady_allocBuiltinFunction (code : Word) : Steady (allocBuiltinFunction code) h :=
  .get_bind ((steady_allocBareFunction _ _).bind fun _ _ => (steady_root _).bind fun _ _ => .pure _)

/-- A new string is listed, if there is memory for it. -/
theorem string_new {text : String} (hnew : h.strings[text]? = none) : string text h =
    match allocOld (h.rootShape .string) (Layout.Text.data + text.toUTF8.size) h with
    | .ok value t => .ok value { t with
        memory := (t.memory.store (value.address + Layout.Text.length) (.smi text.toUTF8.size)).storeBytes
          (value.address + Layout.Text.data) text.toUTF8.data.toList
        strings := t.strings.insert text value
        scopes := t.scopes.root value }
    | .error e t => .error e t := by
  unfold string
  refine (get_bind _).trans ?_
  rw [hnew]
  refine (get_bind _).trans ?_
  cases hallocate : allocOld (h.rootShape .string) (Layout.Text.data + text.toUTF8.size) h with
  | ok value t => exact (bind_of_ok hallocate).trans rfl
  | error e t => exact bind_of_error hallocate

theorem string_old {text : String} {w : Word} (hfound : h.strings[text]? = some w) : string text h = .ok w h := by
  unfold string
  refine (get_bind _).trans ?_
  rw [hfound]
  rfl

/-- A new string takes the place of no other. -/
theorem retains_insert {text : String} (w : Word) (hnew : h.strings[text]? = none) :
    Retains h { h with strings := h.strings.insert text w } := by
  refine ⟨⟨rfl, rfl, rfl, rfl, rfl, rfl⟩, fun other v hv => ?_⟩
  rw [Std.TreeMap.getElem?_insert, if_neg]
  · exact hv
  · intro hsame
    rw [← Std.compare_eq_iff_eq.mp hsame, hnew] at hv
    cases hv

/-- Strings are listed one after another, and none of them is lost. -/
theorem retains_string (text : String) (h : Heap) : Retains h (finalState (string text) h) := by
  cases hfound : h.strings[text]? with
  | some value =>
    rw [finalState_ok (string_old hfound)]
    exact .refl h
  | none =>
    have hrun := string_new hfound
    have hquiet := steady_allocOld (h := h) (h.rootShape .string) (Layout.Text.data + text.toUTF8.size)
    cases hallocate : allocOld (h.rootShape .string) (Layout.Text.data + text.toUTF8.size) h with
    | error e t =>
      rw [hallocate] at hrun
      rw [finalState_error hrun]
      exact (finalState_error hallocate ▸ hquiet : Quiet h t).retains
    | ok value t =>
      rw [hallocate] at hrun
      rw [finalState_ok hrun]
      have hkept : Quiet h t := finalState_ok hallocate ▸ hquiet
      have hnew : t.strings[text]? = none := by rw [hkept.strings, hfound]
      exact hkept.retains.trans ((retains_insert value hnew).trans
        (Quiet.retains ⟨⟨rfl, rfl, rfl, rfl, rfl, rfl⟩, rfl, rfl⟩))

theorem listed_of_string {text : String} {w : Word} {h' : Heap} (run : string text h = .ok w h') :
    h'.strings[text]? = some w := by
  cases hfound : h.strings[text]? with
  | some value =>
    rw [string_old hfound] at run
    cases run
    exact hfound
  | none =>
    rw [string_new hfound] at run
    cases hallocate : allocOld (h.rootShape .string) (Layout.Text.data + text.toUTF8.size) h with
    | error e t =>
      rw [hallocate] at run
      cases run
    | ok value t =>
      rw [hallocate] at run
      cases run
      exact Std.TreeMap.getElem?_insert_self

/-- A run that retains the strings, whatever else it does. -/
def Retaining {α : Type} (act : HeapM α) : Prop := ∀ h, Retains h (finalState act h)

end Heap

namespace Engine

/-- A relation of heaps that everything keeps that compilation does to a heap. -/
structure Lasting (K : Heap → Heap → Prop) : Prop where
  refl : ∀ h, K h h
  trans : ∀ {h h' h''}, K h h' → K h' h'' → K h h''
  scopes : ∀ h scopes, K h { h with scopes }
  string : ∀ text h, K h (finalState (Heap.string text) h)
  number : ∀ n h, K h (finalState (Heap.number n) h)
  allocCode : ∀ entry length record h, K h (finalState (Heap.allocCode entry length record) h)
  allocBuiltinFunction : ∀ code h, K h (finalState (Heap.allocBuiltinFunction code) h)

theorem lasting_retains : Lasting Heap.Retains where
  refl := .refl
  trans := .trans
  scopes _ _ := Heap.Quiet.retains ⟨⟨rfl, rfl, rfl, rfl, rfl, rfl⟩, rfl, rfl⟩
  string := Heap.retains_string
  number _ _ := (Heap.steady_number _).retains
  allocCode _ _ _ _ := (Heap.steady_allocCode _ _ _).retains
  allocBuiltinFunction _ _ := (Heap.steady_allocBuiltinFunction _).retains

variable {ε α β : Type} {K : Heap → Heap → Prop}

theorem onHeap_of_ok {wrap : HeapError → ε} {act : HeapM α} {e : Engine} {a : α} {heap : Heap}
    (h : act e.heap = .ok a heap) : onHeap wrap act e = .ok a { e with heap } := by
  unfold onHeap EStateM.run
  simp only [h]

theorem onHeap_eq_ok {wrap : HeapError → ε} {act : HeapM α} {e e' : Engine} {a : α} :
    onHeap wrap act e = .ok a e' ↔ ∃ heap, act e.heap = .ok a heap ∧ { e with heap } = e' := by
  unfold onHeap EStateM.run
  simp only
  cases act e.heap <;> simp

/-- An engine has the same settings and the same global object, and it has lost no machine code. -/
structure Persists (e e' : Engine) : Prop where
  config : e'.config = e.config
  global : e'.global = e.global
  routines : ∀ (i : Nat) r, e.routines[i]? = some r → e'.routines[i]? = some r

theorem Persists.refl (e : Engine) : Persists e e := ⟨rfl, rfl, fun _ _ h => h⟩

theorem Persists.trans {e e' e'' : Engine} (first : Persists e e') (second : Persists e' e'') : Persists e e'' where
  config := second.config.trans first.config
  global := second.global.trans first.global
  routines i r hr := second.routines i r (first.routines i r hr)

/-- A later engine: what happened to the heap in between keeps a relation, and the rest persists. -/
def Since (K : Heap → Heap → Prop) (e e' : Engine) : Prop := K e.heap e'.heap ∧ e.Persists e'

/-- What persists in an engine, and its heap. -/
def lasting (e : Engine) : Heap × Config × Word × Array Routine := (e.heap, e.config, e.global, e.routines)

/-- Steps that keep a relation of heaps, and what persists in an engine. -/
def Keeping (K : Heap → Heap → Prop) (x : EStateM ε Engine α) : Prop :=
  ∀ e : Engine, Since K e (finalState x e)

namespace Lasting

theorem since_refl (hK : Lasting K) (e : Engine) : Since K e e := ⟨hK.refl _, .refl e⟩

theorem since_trans (hK : Lasting K) {e e' e'' : Engine} (first : Since K e e') (second : Since K e' e'') :
    Since K e e'' := ⟨hK.trans first.1 second.1, first.2.trans second.2⟩

theorem of_state (hK : Lasting K) {e e' : Engine} (h : e'.lasting = e.lasting) : Since K e e' := by
  simp only [lasting, Prod.mk.injEq] at h
  obtain ⟨hheap, hconfig, hglobal, hroutines⟩ := h
  exact ⟨hheap ▸ hK.refl _, hconfig, hglobal, fun _ _ hr => by rwa [hroutines]⟩

theorem of_heap (hK : Lasting K) {x : EStateM ε Engine α} (h : ∀ e, (finalState x e).lasting = e.lasting) :
    Keeping K x := fun e => hK.of_state (h e)

theorem pure (hK : Lasting K) (a : α) : Keeping K (Pure.pure a : EStateM ε Engine α) :=
  hK.of_heap fun _ => rfl

theorem throw (hK : Lasting K) (err : ε) : Keeping K (throw err : EStateM ε Engine α) :=
  hK.of_heap fun _ => rfl

theorem get (hK : Lasting K) : Keeping K (get : EStateM ε Engine Engine) := hK.of_heap fun _ => rfl

theorem update (hK : Lasting K) {f : Engine → Engine} (h : ∀ e, (f e).lasting = e.lasting) :
    Keeping K (modify f : EStateM ε Engine Unit) := hK.of_heap h

theorem bind (hK : Lasting K) {x : EStateM ε Engine α} {f : α → EStateM ε Engine β} (hx : Keeping K x)
    (hf : ∀ a, Keeping K (f a)) : Keeping K (x >>= f) := by
  intro e
  refine finalState_bind (P := fun t => Since K e t) (fun a t hok => ?_) fun err t herror => ?_
  · exact hK.since_trans (finalState_ok hok ▸ hx e) (hf a t)
  · exact finalState_error herror ▸ hx e

theorem ite {c : Prop} [Decidable c] {x y : EStateM ε Engine α} (hx : Keeping K x) (hy : Keeping K y) :
    Keeping K (if c then x else y) := by
  split
  · exact hx
  · exact hy

theorem onHeap {wrap : HeapError → ε} {act : HeapM α} (h : ∀ h, K h (finalState act h)) :
    Keeping K (onHeap wrap act) := by
  intro e
  rw [finalState_onHeap]
  exact ⟨h e.heap, rfl, rfl, fun _ _ hr => hr⟩

theorem liftExcept (hK : Lasting K) (x : Except CompileError α) : Keeping K (liftExcept x : CompileM α) := by
  cases x with
  | ok a => exact hK.pure a
  | error err => exact hK.throw err

theorem forM (hK : Lasting K) {l : List α} {f : α → EStateM ε Engine PUnit} (hf : ∀ a, Keeping K (f a)) :
    Keeping K (l.forM f) := by
  induction l with
  | nil => exact hK.pure _
  | cons a l ih => exact hK.bind (hf a) fun _ => ih

theorem withScope (hK : Lasting K) (kind : ScopeKind) {act : EStateM ε Engine α} (h : Keeping K act) :
    Keeping K (withScope kind act) := by
  intro e
  have henter : (enterScope kind : EStateM ε Engine Nat) e = .ok e.heap.scopes.nextId (e.inScope kind) := rfl
  have hscopes : ∀ (e : Engine) scopes, Since K e { e with heap := { e.heap with scopes } } := fun e _ =>
    ⟨hK.scopes _ _, rfl, rfl, fun _ _ hr => hr⟩
  have hact := hK.since_trans (hscopes e _) (h (e.inScope kind))
  have hleave : ∀ t : Engine, ∃ u, (leaveScope e.heap.scopes.nextId : EStateM ε Engine Unit) t = .ok () u ∧
      Since K t u := by
    intro t
    unfold leaveScope
    split
    · exact ⟨_, rfl, hscopes t _⟩
    · exact ⟨_, rfl, hK.of_state rfl⟩
  cases hrun : act (e.inScope kind) with
  | ok a t =>
    obtain ⟨u, hu, hheap⟩ := hleave t
    have hok : Engine.withScope kind act e = .ok a u := by
      refine (bind_of_ok henter).trans ?_
      simp only [EStateM.run, hrun]
      exact seqRight_of_ok hu
    rw [finalState_ok hrun] at hact
    rw [finalState_ok hok]
    exact hK.since_trans hact hheap
  | error err t =>
    obtain ⟨u, hu, hheap⟩ := hleave t
    have herror : Engine.withScope kind act e = .error err u := by
      refine (bind_of_ok henter).trans ?_
      simp only [EStateM.run, hrun]
      exact seqRight_of_ok hu
    rw [finalState_error hrun] at hact
    rw [finalState_error herror]
    exact hK.since_trans hact hheap

theorem withContext (hK : Lasting K) (context : CompileContext) {act : Nat → EStateM ε Engine α}
    (h : ∀ depth, Keeping K (act depth)) : Keeping K (withContext context act) := by
  intro e
  have hact := hK.since_trans (hK.of_state rfl : Since K e (e.inContext context))
    (h (e.contexts.depth + 1) (e.inContext context))
  have hleave : ∀ t : Engine, ∃ u,
      (leaveContext (e.contexts.depth + 1) : EStateM ε Engine Unit) t = .ok () u ∧ Since K t u :=
    fun t => ⟨_, rfl, hK.of_state rfl⟩
  cases hrun : act (e.contexts.depth + 1) (e.inContext context) with
  | ok a t =>
    obtain ⟨u, hu, hheap⟩ := hleave t
    have hok : Engine.withContext context act e = .ok a u := by
      simp only [inContext, ContextStack.enter] at hrun
      simp only [Engine.withContext, ContextStack.enter, EStateM.run, hrun]
      exact seqRight_of_ok hu
    rw [finalState_ok hrun] at hact
    rw [finalState_ok hok]
    exact hK.since_trans hact hheap
  | error err t =>
    obtain ⟨u, hu, hheap⟩ := hleave t
    have herror : Engine.withContext context act e = .error err u := by
      simp only [inContext, ContextStack.enter] at hrun
      simp only [Engine.withContext, ContextStack.enter, EStateM.run, hrun]
      exact seqRight_of_ok hu
    rw [finalState_error hrun] at hact
    rw [finalState_error herror]
    exact hK.since_trans hact hheap

/-! ### Compilation -/

variable {compile : UnitCompiler}

theorem buildGraph (hK : Lasting K) (graph : Except GraphError Graph) : Keeping K (buildGraph graph) := by
  cases graph with
  | ok g => exact hK.pure g
  | error e => exact hK.throw _

theorem buildStub (hK : Lasting K) (hc : ∀ graph kind nested, Keeping K (compile graph kind nested))
    (name : String) (source : StubSource) : Keeping K (buildStub compile name source) := by
  refine hK.withScope _ ?_
  cases source with
  | host =>
    exact hK.bind (onHeap (hK.allocCode _ _ _)) fun _ =>
      hK.bind (onHeap (hK.allocBuiltinFunction _)) fun _ => hK.pure _
  | body build =>
    exact hK.bind (hK.buildGraph _) fun _ => hK.bind (hc _ _ _) fun _ =>
      hK.bind (onHeap (hK.allocBuiltinFunction _)) fun _ => hK.pure _

theorem stub (hK : Lasting K) (hc : ∀ graph kind nested, Keeping K (compile graph kind nested))
    (name : String) : Keeping K (stub compile name) := by
  intro e
  cases hnew : e.stubs.compiled? name with
  | some s =>
    rw [finalState_ok (stub_of_compiled hnew)]
    exact hK.since_refl e
  | none =>
    cases hdeclared : e.stubs.declared[name]? with
    | none =>
      rw [finalState_error (stub_of_undeclared hnew hdeclared)]
      exact hK.since_refl e
    | some source =>
      unfold finalState
      rw [stub_of_declared hnew hdeclared]
      by_cases hmem : name ∈ e.stubs.inProgress
      · rw [marking_busy _ hmem]
        exact hK.since_refl e
      · have hmarked : Since K e (e.marked name) := hK.of_state rfl
        have hbuilt := hK.since_trans hmarked (hK.buildStub hc name source (e.marked name))
        cases hbuild : Engine.buildStub compile name source (e.marked name) with
        | ok s t =>
          rw [marking_ok hmem hbuild]
          rw [finalState_ok hbuild] at hbuilt
          exact hK.since_trans hbuilt (hK.of_state rfl)
        | error err t =>
          rw [marking_error hmem hbuild]
          rw [finalState_error hbuild] at hbuilt
          exact hK.since_trans hbuilt (hK.of_state rfl)

theorem newCache (hK : Lasting K) (hc : ∀ graph kind nested, Keeping K (compile graph kind nested))
    (kind : CacheKind) : Keeping K (newCache compile kind) :=
  hK.withScope _ (hK.bind (hK.buildGraph _) fun _ => hK.bind (hc _ _ _) fun _ =>
    hK.bind (onHeap (hK.allocBuiltinFunction _)) fun _ => hK.bind (hK.update fun _ => rfl) fun _ => hK.pure _)

theorem resolve (hK : Lasting K) (hc : ∀ graph kind nested, Keeping K (compile graph kind nested))
    (nested : Array (Option Word)) (c : Const) : Keeping K (resolve compile nested c) := by
  unfold Engine.resolve
  split
  · exact hK.pure _
  · split
    · exact hK.pure _
    · exact onHeap (hK.number _)
  · exact onHeap (hK.number _)
  · exact onHeap (hK.string _)
  iterate 4 exact hK.bind hK.get fun _ => hK.pure _
  iterate 2 exact hK.pure _
  · exact hK.bind (hK.stub hc _) fun _ => hK.pure _
  · exact hK.bind (hK.liftExcept _) fun _ => hK.pure _
  · split
    · exact hK.pure _
    · exact hK.throw _
  · exact hK.bind hK.get fun _ => hK.pure _
  · exact hK.newCache hc _
  iterate 3 exact hK.throw _

theorem prepare (hK : Lasting K) (trace : TraceStages) (graph : Graph) (kind : UnitKind) :
    Keeping K (prepare trace graph kind) := by
  have hdump : ∀ traced graph stage, Keeping K (traceDump traced graph kind stage) :=
    fun _ _ _ => ite (hK.update fun _ => rfl) (hK.pure _)
  have hlower : Keeping K (lowerGraph graph) := by
    refine hK.bind (hK.forM fun _ => hK.update fun _ => rfl) fun _ => ?_
    split
    · exact hK.throw _
    · exact hK.pure _
  exact hK.bind (hdump _ _ _) fun _ => hK.bind (hdump _ _ _) fun _ => hK.bind hlower fun _ =>
    hK.bind (hdump _ _ _) fun _ => hK.pure _

theorem conclude (hK : Lasting K) (trace : TraceStages) (lowered : Graph) (kind : UnitKind) (depth : Nat)
    (outer : Option String) (emitted : Program × CodeRecord) :
    Keeping K (conclude trace lowered kind depth outer emitted) := by
  have hpush : Keeping K (modify fun e => { e with routines := e.routines.push (.program emitted.1) } : CompileM Unit) :=
    fun e => ⟨hK.refl _, rfl, rfl, fun i r hr => by
      obtain ⟨hlt, -⟩ := Array.getElem?_eq_some_iff.mp hr
      exact (Array.getElem?_push_lt hlt).trans ((Array.getElem?_eq_getElem hlt).symm.trans hr)⟩
  have hdefine : Keeping K (defineRoutine emitted.1) :=
    ite (hK.bind (hK.throw _) fun _ => hK.bind hK.get fun _ => hK.bind hpush fun _ =>
      hK.pure _) (hK.bind hK.get fun _ => hK.bind hpush fun _ => hK.pure _)
  have hrest : Keeping K (do
      let entry ← defineRoutine emitted.1
      emitEvent (.compiled lowered.name kind depth outer lowered.instrs.size)
      Engine.onHeap .heap (Heap.allocCode entry 0 emitted.2) : CompileM Word) :=
    hK.bind hdefine fun _ => hK.bind (hK.update fun _ => rfl) fun _ => onHeap (hK.allocCode _ _ _)
  exact ite (hK.bind (hK.update fun _ => rfl) fun _ => hrest) hrest

/-- Compilation keeps what heap operations keep. -/
theorem compileNested (hK : Lasting K) (nesting : Nat) (graph : Graph) (kind : UnitKind)
    (nested : Array (Option Word)) : Keeping K (compileNested nesting graph kind nested) := by
  induction nesting generalizing graph kind nested with
  | zero => exact hK.throw _
  | succ nesting ih =>
    rw [compileNested_succ]
    exact hK.bind hK.get fun _ => hK.withContext _ fun _ => hK.bind hK.get fun _ =>
      hK.bind (hK.prepare _ _ _) fun _ => hK.bind hK.get fun _ =>
        hK.bind (Inquiry.finalState_run (R := Since K) hK.since_refl
          hK.since_trans fun c => hK.resolve ih _ c) fun _ => hK.conclude _ _ _ _ _ _

end Lasting
end Engine
end ScriptEngine
