import Mathlib
import ScriptEngine.Proofs.Engine.Stubs
import ScriptEngine.Proofs.Heap.Spreading
import ScriptEngine.Proofs.Heap.Start
import ScriptEngine.Proofs.Machine.Access
import ScriptEngine.Proofs.Machine.Listing

/-!
What compiled stubs lead to. The function of a stub has a code object, whose entry is that of a routine:
the host, or a program that was generated from the body of the stub. Compilation keeps it so for the
stubs that are there, and makes it so for those that it adds.
-/

namespace ScriptEngine

open State

namespace Engine

variable {ε α β : Type} {e e' e'' : Engine} {T T' T'' : Contents} {code : Word} {r : Routine}

/-! ### Engines that go on -/

/-- An engine went on: its settings are the same, and it has lost nothing that compiled code refers to. -/
structure GoesOn (e e' : Engine) : Prop where
  config : e'.config = e.config
  global : e'.global = e.global
  declared : e'.stubs.declared = e.stubs.declared
  compiled : ∀ name s, e.stubs.compiled? name = some s → e'.stubs.compiled? name = some s
  heap : e.heap.Retains e'.heap
  routines : ∀ (i : Nat) r, e.routines[i]? = some r → e'.routines[i]? = some r

theorem GoesOn.refl (e : Engine) : GoesOn e e := ⟨rfl, rfl, rfl, fun _ _ h => h, .refl _, fun _ _ h => h⟩

theorem GoesOn.trans (h : GoesOn e e') (h' : GoesOn e' e'') : GoesOn e e'' where
  config := h'.config.trans h.config
  global := h'.global.trans h.global
  declared := h'.declared.trans h.declared
  compiled name s hs := h'.compiled name s (h.compiled name s hs)
  heap := h.heap.trans h'.heap
  routines i r hr := h'.routines i r (h.routines i r hr)

/-- Texts and machine code that have addresses. -/
structure Modest (e : Engine) : Prop where
  texts : ∀ (text : String) w, e.heap.strings[text]? = some w → text.utf8ByteSize < 2 ^ 63
  routines : e.routines.size ≤ 2 ^ 64

/-- Nothing gets smaller. -/
theorem GoesOn.modest (h : GoesOn e e') (modest : Modest e') : Modest e := by
  refine ⟨fun text w hw => modest.texts text w (h.heap.strings text w hw), ?_⟩
  by_contra hlarge
  have hlast := h.routines (2 ^ 64) _ (Array.getElem?_eq_getElem (by omega))
  have hlt := (Array.getElem?_eq_some_iff.mp hlast).1
  have hle := modest.routines
  omega

/-- Values stay values; cells that hold code stay where they are, and so does the code of functions. -/
structure Carried (T T' : Contents) : Prop where
  leaves : ∀ {w kind rest}, T w = some (.leaf kind rest) → T' w = some (.leaf kind rest)
  values : ∀ {w}, Heap.IsValue T w → Heap.IsValue T' w
  objects : ∀ {o s st rest}, T o = some (.object s st rest) →
    ∃ s' st' rest', T' o = some (.object s' st' rest') ∧ rest'.head? = rest.head?

theorem Carried.refl (T : Contents) : Carried T T := ⟨id, id, fun ho => ⟨_, _, _, ho, rfl⟩⟩

theorem Carried.trans (h : Carried T T') (h' : Carried T' T'') : Carried T T'' where
  leaves hw := h'.leaves (h.leaves hw)
  values hw := h'.values (h.values hw)
  objects ho := by
    obtain ⟨s, st, rest, ho', hrest⟩ := h.objects ho
    obtain ⟨s', st', rest', ho'', hrest'⟩ := h'.objects ho'
    exact ⟨s', st', rest', ho'', hrest'.trans hrest⟩

theorem carried_of_frame {X : Word → Prop} {h h' : Heap} (frame : Heap.Frame X h h' T T')
    (changed : ∀ {o s st rest s' st' rest'}, X o → T o = some (.object s st rest) →
      T' o = some (.object s' st' rest') → rest'.head? = rest.head?) : Carried T T' where
  leaves := frame.leaves
  values := frame.isValue
  objects {o s st rest} ho := by
    obtain ⟨s', st', rest', ho'⟩ := frame.objects ho
    refine ⟨s', st', rest', ho', ?_⟩
    by_cases hX : X o
    · exact changed hX ho ho'
    · have hsame := (frame.same hX ho').1
      rw [ho] at hsame
      cases hsame
      rfl

/-! ### Where functions lead -/

/-- A code object leads to a routine. -/
def Enters (T : Contents) (e : Engine) (code : Word) (r : Routine) : Prop :=
  ∃ entry rest, T code = some (.leaf .code (entry :: rest)) ∧ e.routines[entry.toNat]? = some r

/-- A function leads to a routine. -/
def Calls (T : Contents) (e : Engine) (function : Word) (r : Routine) : Prop :=
  ∃ s st code more, T function = some (.object s st (code :: more)) ∧ Enters T e code r

theorem Enters.mono (h : Enters T e code r) (on : GoesOn e e') (carried : Carried T T') : Enters T' e' code r := by
  obtain ⟨entry, rest, hcode, hr⟩ := h
  exact ⟨entry, rest, carried.leaves hcode, on.routines _ _ hr⟩

theorem Calls.mono {function : Word} (h : Calls T e function r) (on : GoesOn e e') (carried : Carried T T') :
    Calls T' e' function r := by
  obtain ⟨s, st, code, more, hf, henters⟩ := h
  obtain ⟨s', st', rest', hf', hrest⟩ := carried.objects hf
  obtain ⟨more', rfl⟩ := List.head?_eq_some_iff.mp hrest
  exact ⟨s', st', code, more', hf', henters.mono on carried⟩

/-- The routine was made of the source of a stub. -/
def Made (name : String) (source : StubSource) (r : Routine) (e : Engine) : Prop :=
  match source with
  | .host => r = .host
  | .body body => ∃ p e₀, r = .program p ∧ p.trapOnEntry = e.config.trapOnEntry ∧ Generated name body p e₀ ∧
    GoesOn e₀ e

theorem Made.mono {name : String} {source : StubSource} (h : Made name source r e) (on : GoesOn e e') :
    Made name source r e' := by
  cases source with
  | host => exact h
  | body body =>
    obtain ⟨p, e₀, hr, htrap, hgenerated, hon⟩ := h
    exact ⟨p, e₀, hr, htrap.trans (congrArg Config.trapOnEntry on.config.symm), hgenerated, hon.trans on⟩

/-- The stubs are the standard ones, and those that are compiled lead to what their sources say. -/
structure Shelved (T : Contents) (e : Engine) : Prop where
  laid : Laid e.heap T
  declared : e.stubs.declared = StubLibrary.standard.declared
  host : e.routines[hostEntry]? = some .host
  stubs : ∀ {name s}, e.stubs.compiled? name = some s → ∃ source r, e.stubs.declared[name]? = some source ∧
    Calls T e s.function r ∧ Made name source r e

/-- An engine that goes on without new stubs. -/
theorem Shelved.mono (shelved : Shelved T e) (on : GoesOn e e') (carried : Carried T T') (laid : Laid e'.heap T')
    (old : ∀ name s, e'.stubs.compiled? name = some s → e.stubs.compiled? name = some s) : Shelved T' e' where
  laid := laid
  declared := on.declared.trans shelved.declared
  host := on.routines _ _ shelved.host
  stubs {name s} hs := by
    obtain ⟨source, r, hsource, hcalls, hmade⟩ := shelved.stubs (old name s hs)
    exact ⟨source, r, by rw [on.declared, hsource], hcalls.mono on carried, hmade.mono on⟩

/-- An engine with a sound heap. -/
structure Stocked (T : Contents) (e : Engine) : Prop extends Shelved T e where
  sound : ∃ past, Heap.Sound e.heap T past

theorem Stocked.mono (stocked : Stocked T e) (on : GoesOn e e') (carried : Carried T T')
    (sound : ∃ past, Heap.Sound e'.heap T' past)
    (old : ∀ name s, e'.stubs.compiled? name = some s → e.stubs.compiled? name = some s) : Stocked T' e' := by
  obtain ⟨past, hsound⟩ := sound
  exact ⟨stocked.toShelved.mono on carried hsound.typed.laid old, past, hsound⟩

/-! ### Steps of compilation -/

/-- Steps that, where they succeed, keep an engine stocked, from states with `P` to answers with `Q`. -/
def Stocks (P : Contents → Engine → Prop) (x : EStateM ε Engine α) (Q : α → Contents → Engine → Prop) : Prop :=
  ∀ e a e', x e = .ok a e' → GoesOn e e' ∧ (Modest e' → ∀ T, Stocked T e → P T e →
    ∃ T', Stocked T' e' ∧ Carried T T' ∧ Q a T' e')

section

variable {P : Contents → Engine → Prop} {Q : α → Contents → Engine → Prop} {R : β → Contents → Engine → Prop}
  {x : EStateM ε Engine α} {f : α → EStateM ε Engine β}

theorem Stocks.bind (hx : Stocks P x Q) (hf : ∀ a, Stocks (Q a) (f a) R) : Stocks P (x >>= f) R := by
  intro e b e' h
  obtain ⟨a, t, ha, hb⟩ := bind_eq_ok.mp h
  obtain ⟨hon, hstock⟩ := hx _ _ _ ha
  obtain ⟨hon', hstock'⟩ := hf a _ _ _ hb
  refine ⟨hon.trans hon', fun modest T stocked hP => ?_⟩
  obtain ⟨T₁, stocked₁, carried₁, hQ⟩ := hstock (hon'.modest modest) T stocked hP
  obtain ⟨T₂, stocked₂, carried₂, hR⟩ := hstock' modest T₁ stocked₁ hQ
  exact ⟨T₂, stocked₂, carried₁.trans carried₂, hR⟩

theorem Stocks.weaken {P' : Contents → Engine → Prop} {Q' : α → Contents → Engine → Prop} (h : Stocks P x Q)
    (hP : ∀ T e, P' T e → P T e) (hQ : ∀ a T e, Q a T e → Q' a T e) : Stocks P' x Q' := by
  intro e a e' hok
  obtain ⟨hon, hstock⟩ := h _ _ _ hok
  refine ⟨hon, fun modest T stocked hP' => ?_⟩
  obtain ⟨T', stocked', carried, hq⟩ := hstock modest T stocked (hP T e hP')
  exact ⟨T', stocked', carried, hQ a T' e' hq⟩

/-- Facts that last. -/
theorem Stocks.carry {F : Contents → Engine → Prop} (h : Stocks P x Q)
    (hF : ∀ {T T' e e'}, F T e → Carried T T' → GoesOn e e' → F T' e') :
    Stocks (fun T e => P T e ∧ F T e) x fun a T e => Q a T e ∧ F T e := by
  intro e a e' hok
  obtain ⟨hon, hstock⟩ := h _ _ _ hok
  refine ⟨hon, fun modest T stocked hP => ?_⟩
  obtain ⟨T', stocked', carried, hq⟩ := hstock modest T stocked hP.1
  exact ⟨T', stocked', carried, hq, hF hP.2 carried hon⟩

theorem Stocks.get_bind {f : Engine → EStateM ε Engine β}
    (h : ∀ e, Stocks (fun T t => P T t ∧ t = e) (f e) R) : Stocks P (get >>= f) R := by
  intro e b e' hok
  obtain ⟨hon, hstock⟩ := h e _ _ _ ((State.get_bind _).symm.trans hok)
  exact ⟨hon, fun modest T stocked hP => hstock modest T stocked ⟨hP, rfl⟩⟩

theorem Stocks.throw {err : ε} : Stocks P (throw err : EStateM ε Engine α) Q :=
  fun _ _ _ h => (throw_eq_ok.mp h).elim

/-- Two engines that differ in nothing that compiled code depends on. -/
structure Aside (e e' : Engine) : Prop where
  config : e'.config = e.config
  global : e'.global = e.global
  stubs : e'.stubs.declared = e.stubs.declared
  compiled : e'.stubs.compiled = e.stubs.compiled
  heap : ∃ scopes, e'.heap = { e.heap with scopes }
  routines : e'.routines = e.routines

theorem Aside.trans (h : Aside e e') (h' : Aside e' e'') : Aside e e'' where
  config := h'.config.trans h.config
  global := h'.global.trans h.global
  stubs := h'.stubs.trans h.stubs
  compiled := h'.compiled.trans h.compiled
  heap := by
    obtain ⟨scopes, hheap⟩ := h.heap
    obtain ⟨scopes', hheap'⟩ := h'.heap
    exact ⟨scopes', hheap'.trans (by rw [hheap])⟩
  routines := h'.routines.trans h.routines

theorem Aside.goesOn (h : Aside e e') : GoesOn e e' where
  config := h.config
  global := h.global
  declared := h.stubs
  compiled name s hs := by rwa [StubLibrary.compiled?, h.compiled]
  heap := by
    obtain ⟨scopes, hheap⟩ := h.heap
    rw [hheap]
    exact Heap.Quiet.retains ⟨⟨rfl, rfl, rfl, rfl, rfl, rfl⟩, rfl, rfl⟩
  routines i r hr := by rwa [h.routines]

theorem Aside.stocked (h : Aside e e') (stocked : Stocked T e) : Stocked T e' := by
  refine stocked.mono h.goesOn (.refl T) ?_ fun name s hs => ?_
  · obtain ⟨past, sound⟩ := stocked.sound
    obtain ⟨scopes, hheap⟩ := h.heap
    rw [hheap]
    exact ⟨past, (sound.scopes scopes).1⟩
  · rwa [StubLibrary.compiled?, h.compiled] at hs

/-- Steps that change nothing that compiled code depends on. -/
def Still (x : EStateM ε Engine α) : Prop := ∀ e a e', x e = .ok a e' → Aside e e'

theorem Still.stocks (h : Still x) (hQ : ∀ {e a e' T}, x e = .ok a e' → P T e → Q a T e') : Stocks P x Q :=
  fun _ _ _ hok => ⟨(h _ _ _ hok).goesOn, fun _ T stocked hP => ⟨T, (h _ _ _ hok).stocked stocked, .refl T, hQ hok hP⟩⟩

/-- What does not depend on the change still holds. -/
theorem Still.keeps (h : Still x) (hP : ∀ {T e e'}, P T e → Aside e e' → P T e') : Stocks P x fun _ => P :=
  h.stocks fun hok hp => hP hp (h _ _ _ hok)

theorem Aside.refl (e : Engine) : Aside e e := ⟨rfl, rfl, rfl, rfl, ⟨e.heap.scopes, rfl⟩, rfl⟩

theorem Still.pure (a : α) : Still (Pure.pure a : EStateM ε Engine α) := by
  intro e b e' h
  obtain ⟨-, rfl⟩ := pure_eq_ok.mp h
  exact .refl _

theorem Still.throw (err : ε) : Still (MonadExcept.throw err : EStateM ε Engine α) := fun _ _ _ h => (throw_eq_ok.mp h).elim

theorem Still.bind (hx : Still x) (hf : ∀ a, Still (f a)) : Still (x >>= f) := by
  intro e b e' h
  obtain ⟨a, t, ha, hb⟩ := bind_eq_ok.mp h
  exact (hx _ _ _ ha).trans (hf a _ _ _ hb)

theorem Still.forM {l : List α} {f : α → EStateM ε Engine PUnit} (hf : ∀ a, Still (f a)) : Still (l.forM f) := by
  induction l with
  | nil => exact .pure _
  | cons a l ih => exact (hf a).bind fun _ => ih

theorem Still.modify {g : Engine → Engine} (h : ∀ e, Aside e (g e)) : Still (modify g : EStateM ε Engine PUnit) := by
  intro e u e' hok
  obtain rfl := modify_eq_ok.mp hok
  exact h e

theorem still_emitEvent (event : Event) : Still (emitEvent event : EStateM ε Engine Unit) :=
  .modify fun e => ⟨rfl, rfl, rfl, rfl, ⟨e.heap.scopes, rfl⟩, rfl⟩

theorem Stocks.pure {a : α} (h : ∀ T e, P T e → Q a T e) : Stocks P (Pure.pure a : EStateM ε Engine α) Q :=
  (Still.pure a).stocks fun {_ _ _ T} hok hP => by
    obtain ⟨rfl, rfl⟩ := pure_eq_ok.mp hok
    exact h T _ hP

end

/-! ### Brackets -/

theorem aside_enterScope (kind : ScopeKind) (e : Engine) : Aside e (e.inScope kind) := ⟨rfl, rfl, rfl, rfl, ⟨_, rfl⟩, rfl⟩

theorem withScope_eq_ok {kind : ScopeKind} {act : EStateM ε Engine α} {a : α}
    (h : withScope kind act e = .ok a e') : ∃ t, act (e.inScope kind) = .ok a t ∧ Aside t e' := by
  have henter : (enterScope kind : EStateM ε Engine Nat) e = .ok e.heap.scopes.nextId (e.inScope kind) := rfl
  have hrun := (bind_of_ok henter).symm.trans h
  cases hact : act (e.inScope kind) with
  | error err t =>
    simp only [EStateM.run, hact] at hrun
    obtain ⟨_, t', -, hthrow⟩ := seqRight_eq_ok.mp hrun
    exact (throw_eq_ok.mp hthrow).elim
  | ok b t =>
    simp only [EStateM.run, hact] at hrun
    obtain ⟨_, t', hleave, hpure⟩ := seqRight_eq_ok.mp hrun
    obtain ⟨rfl, rfl⟩ := pure_eq_ok.mp hpure
    refine ⟨t, rfl, ?_⟩
    unfold leaveScope at hleave
    split at hleave
    · cases hleave
      exact ⟨rfl, rfl, rfl, rfl, ⟨_, rfl⟩, rfl⟩
    · cases hleave
      exact ⟨rfl, rfl, rfl, rfl, ⟨t.heap.scopes, rfl⟩, rfl⟩

theorem withContext_eq_ok {context : CompileContext} {act : Nat → EStateM ε Engine α} {a : α}
    (h : withContext context act e = .ok a e') :
    ∃ t, act (e.contexts.depth + 1) (e.inContext context) = .ok a t ∧ Aside t e' := by
  unfold withContext at h
  cases hact : act (e.contexts.depth + 1) (e.inContext context) with
  | error err t =>
    simp only [inContext, ContextStack.enter] at hact
    simp only [ContextStack.enter, EStateM.run, hact] at h
    obtain ⟨_, t', -, hthrow⟩ := seqRight_eq_ok.mp h
    exact (throw_eq_ok.mp hthrow).elim
  | ok b t =>
    have hact' := hact
    simp only [inContext, ContextStack.enter] at hact'
    simp only [ContextStack.enter, EStateM.run, hact'] at h
    obtain ⟨_, t', hleave, hpure⟩ := seqRight_eq_ok.mp h
    obtain ⟨rfl, rfl⟩ := pure_eq_ok.mp hpure
    unfold leaveContext at hleave
    cases hleave
    exact ⟨t, rfl, ⟨rfl, rfl, rfl, rfl, ⟨t.heap.scopes, rfl⟩, rfl⟩⟩

section

variable {P : Contents → Engine → Prop} {Q : α → Contents → Engine → Prop}

/-- Steps between two changes that compiled code does not depend on. -/
theorem Stocks.within {x y : EStateM ε Engine α} (h : Stocks (fun _ _ => True) x Q)
    (hQ : ∀ {a T e e'}, Q a T e → Aside e e' → Q a T e')
    (hrun : ∀ e a e', y e = .ok a e' → ∃ start t, Aside e start ∧ x start = .ok a t ∧ Aside t e') : Stocks P y Q := by
  intro e a e' hok
  obtain ⟨start, t, hstart, hact, hdone⟩ := hrun e a e' hok
  obtain ⟨hon, hstock⟩ := h _ _ _ hact
  refine ⟨(hstart.goesOn.trans hon).trans hdone.goesOn, fun modest T stocked _ => ?_⟩
  obtain ⟨T', stocked', carried, hq⟩ := hstock (hdone.goesOn.modest modest) T (hstart.stocked stocked) trivial
  exact ⟨T', hdone.stocked stocked', carried, hQ hq hdone⟩

theorem Stocks.withScope {kind : ScopeKind} {act : EStateM ε Engine α} (h : Stocks (fun _ _ => True) act Q)
    (hQ : ∀ {a T e e'}, Q a T e → Aside e e' → Q a T e') : Stocks P (withScope kind act) Q :=
  h.within hQ fun e _ _ hok => by
    obtain ⟨t, hact, hdone⟩ := withScope_eq_ok hok
    exact ⟨_, t, aside_enterScope kind e, hact, hdone⟩

end

/-! ### The heap -/

section

variable {P : Contents → Engine → Prop} {Q : α → Contents → Engine → Prop} {wrap : HeapError → ε}

theorem Stocks.onHeap {act : HeapM α} (retains : ∀ h : Heap, h.Retains (finalState act h))
    (h : ∀ {e a heap T past}, act e.heap = .ok a heap → Modest { e with heap } → Stocked T e →
      Heap.Sound e.heap T past → P T e →
        ∃ T' past', Heap.Sound heap T' past' ∧ Carried T T' ∧ Q a T' { e with heap }) :
    Stocks P (onHeap wrap act) Q := by
  intro e a e' hok
  obtain ⟨heap, hrun, rfl⟩ := onHeap_eq_ok.mp hok
  have hon : GoesOn e { e with heap } :=
    ⟨rfl, rfl, rfl, fun _ _ hs => hs, finalState_ok hrun ▸ retains e.heap, fun _ _ hr => hr⟩
  refine ⟨hon, fun modest T stocked hP => ?_⟩
  obtain ⟨past, sound⟩ := stocked.sound
  obtain ⟨T', past', sound', carried, hQ⟩ := h hrun modest stocked sound hP
  exact ⟨T', stocked.mono hon carried ⟨past', sound'⟩ fun _ _ hs => hs, carried, hQ⟩

theorem stocks_string (text : String) :
    Stocks P (onHeap wrap (Heap.string text)) fun w T _ => T w = some (.text text) :=
  .onHeap (Heap.retains_string text) fun hrun modest _ sound _ => by
    obtain ⟨T', sound', frame, hw⟩ :=
      Heap.string_sound sound (modest.texts text _ (Heap.listed_of_string hrun)) hrun
    exact ⟨T', _, sound', carried_of_frame frame fun hX => hX.elim, hw⟩

theorem stocks_number (n : Double) : Stocks P (onHeap wrap (Heap.number n)) fun _ _ _ => True :=
  .onHeap (fun _ => (Heap.steady_number n).retains) fun hrun _ _ sound _ => by
    obtain ⟨T', sound', frame, -⟩ := Heap.number_sound sound hrun
    exact ⟨T', _, sound', carried_of_frame frame fun hX => hX.elim, trivial⟩

theorem stocks_allocCode {entry length : Nat} {record : CodeRecord} {r : Routine}
    (hP : ∀ T e, Stocked T e → P T e → entry < 2 ^ 64 ∧ e.routines[entry]? = some r) :
    Stocks P (onHeap wrap (Heap.allocCode entry length record)) fun code T e => Enters T e code r :=
  .onHeap (fun _ => (Heap.steady_allocCode entry length record).retains) fun {e _ _ T _} hrun _ stocked sound hp => by
    obtain ⟨T', sound', frame, -, hcode⟩ := Heap.allocCode_sound sound hrun
    obtain ⟨lt, hr⟩ := hP T e stocked hp
    exact ⟨T', _, sound', carried_of_frame frame fun hX => hX.elim, _, _, hcode, by rw [Word.toNat_ofNat lt, hr]⟩

/-- A function for a code object, of whose routine something is known. -/
theorem stocks_function {code : Word} {S : Routine → Engine → Prop} (hS : ∀ {r e e'}, S r e → GoesOn e e' → S r e')
    (hP : ∀ T e, P T e → ∃ r, Enters T e code r ∧ S r e) :
    Stocks P (onHeap wrap (Heap.allocBuiltinFunction code)) fun f T e => ∃ r, Calls T e f r ∧ S r e := by
  intro e f e' hok
  have retains := fun h : Heap => (Heap.steady_allocBuiltinFunction (h := h) code).retains
  refine Stocks.onHeap (Q := fun f T e => ∃ r, Calls T e f r ∧ S r e) retains ?_ _ _ _ hok
  intro e f heap T _ hrun _ _ sound hp
  obtain ⟨T', st, sound', frame, hnone, hf, -⟩ := Heap.allocBuiltinFunction_sound sound hrun
  have carried : Carried T T' := carried_of_frame frame fun hX ho => absurd hX (ne_of_none hnone ho)
  have hon : GoesOn e { e with heap } :=
    ⟨rfl, rfl, rfl, fun _ _ hs => hs, finalState_ok hrun ▸ retains e.heap, fun _ _ hr => hr⟩
  obtain ⟨r, henters, hs⟩ := hP T e hp
  exact ⟨T', _, sound', carried, r, ⟨_, _, _, _, hf, henters.mono hon carried⟩, hS hs hon⟩

/-- An assignment to a property changes no code. -/
theorem stocks_setProperty {o key v : Word} (hP : ∀ T e, Stocked T e → P T e →
    (∃ s st rest, T o = some (.object s st rest)) ∧ Heap.IsValue T key ∧ Heap.IsValue T v) :
    Stocks P (onHeap wrap (Heap.setProperty o key v)) fun _ _ _ => True :=
  .onHeap (Heap.gradual_setProperty o key v).retaining fun {e _ heap T past} hrun _ stocked sound hp => by
    obtain ⟨⟨s, st, rest, ho⟩, hkey, hv⟩ := hP T e stocked hp
    obtain ⟨own, _, _, result, T', -, -, -, -, typed, frame, tracked, ⟨hrefreshed, -, -⟩, hrevised⟩ :=
      Heap.setProperty_ok sound.typed sound.tracked sound.tidy ho hkey hrun
    obtain ⟨hvalues, horigin⟩ := Heap.update_values past e.heap o key
    refine ⟨T', _, sound.step ho typed frame tracked hrevised (fun hset => hset.alike.distinct rfl) hrefreshed hv
      hvalues horigin, carried_of_frame frame fun {o' _ _ rest₀ _ _ _} hX hold hnew => ?_, trivial⟩
    subst hX
    rcases hrefreshed with hrest | ⟨code, instances, target, ⟨_, _, old, hold'⟩, ⟨_, _, hnew'⟩, -⟩
    · obtain ⟨_, _, hnew'⟩ := hrest _ _ _ hold
      rw [hnew] at hnew'
      cases hnew'
      rfl
    · rw [hold] at hold'
      rw [hnew] at hnew'
      cases hold'
      cases hnew'
      rfl

end

/-! ### Compilation -/

/-- Code generation has made this program of a graph, and left the engine in this state. -/
def Emits (g : Graph) (p : Program) (e : Engine) : Prop :=
  ∃ (scope : EmissionScope) (nesting : Nat) (nested : Array (Option Word)) (start : Engine) (record : CodeRecord),
    scope.graph = (Lowering.lower g).graph ∧ scope.resolve = resolve (compileNested nesting) nested ∧
      emitProgram scope start = .ok (p, record) e

theorem Emits.generated {name : String} {body : BuildM Unit} {g : Graph} {p : Program} (h : Emits g p e)
    (hbuild : Builder.build name body = .ok g) : Generated name body p e := by
  obtain ⟨scope, nesting, nested, start, record, hscope⟩ := h
  exact ⟨g, scope, nesting, nested, start, record, hbuild, hscope⟩

/-- Code that was compiled from a graph. -/
def Compiled (g : Graph) (T : Contents) (e : Engine) (code : Word) : Prop :=
  ∃ p e₀, Enters T e code (.program p) ∧ p.trapOnEntry = e.config.trapOnEntry ∧ Emits g p e₀ ∧ GoesOn e₀ e

theorem Compiled.mono {g : Graph} (h : Compiled g T e code) (on : GoesOn e e') (carried : Carried T T') :
    Compiled g T' e' code := by
  obtain ⟨p, e₀, henters, htrap, hemits, hon⟩ := h
  exact ⟨p, e₀, henters.mono on carried, htrap.trans (congrArg Config.trapOnEntry on.config.symm), hemits, hon.trans on⟩

section

variable {P : Contents → Engine → Prop} {compile : UnitCompiler}

theorem still_buildGraph (graph : Except GraphError Graph) : Still (buildGraph graph) := by
  cases graph with
  | ok g => exact .pure g
  | error e => exact .throw _

theorem still_liftExcept (x : Except CompileError α) : Still (liftExcept x : CompileM α) := by
  cases x with
  | ok a => exact .pure a
  | error e => exact .throw _

theorem still_prepare (trace : TraceStages) (graph : Graph) (kind : UnitKind) : Still (prepare trace graph kind) := by
  have hdump : ∀ traced graph stage, Still (traceDump traced graph kind stage) := by
    intro traced graph stage
    cases traced
    · exact .pure _
    · exact still_emitEvent _
  have hlower : Still (lowerGraph graph) := by
    refine (Still.forM fun _ => still_emitEvent _).bind fun _ => ?_
    cases (Lowering.lower graph).error with
    | none => exact .pure _
    | some e => exact .throw _
  exact (hdump _ _ _).bind fun _ => (hdump _ _ _).bind fun _ => hlower.bind fun _ => (hdump _ _ _).bind fun _ => .pure _

/-- Machine code is kept at the end. -/
theorem stocks_defineRoutine (p : Program) :
    Stocks P (defineRoutine p) fun entry _ e => entry < 2 ^ 64 ∧ e.routines[entry]? = some (.program p) := by
  intro e entry e' h
  have hrun : (if p.isValid then pure () else throw .backend : CompileM Unit) e = .ok () e ∧
      entry = e.routines.size ∧ e' = { e with routines := e.routines.push (.program p) } := by
    unfold defineRoutine at h
    cases hvalid : p.isValid with
    | false =>
      rw [hvalid] at h
      exact (throw_eq_ok.mp h).elim
    | true =>
      rw [hvalid] at h
      cases h
      exact ⟨rfl, rfl, rfl⟩
  obtain ⟨-, rfl, rfl⟩ := hrun
  have hon : GoesOn e { e with routines := e.routines.push (.program p) } := by
    refine ⟨rfl, rfl, rfl, fun _ _ hs => hs, .refl _, fun i r hr => ?_⟩
    obtain ⟨hi, -⟩ := Array.getElem?_eq_some_iff.mp hr
    rwa [Array.getElem?_push, if_neg (by omega)]
  refine ⟨hon, fun modest T stocked _ => ⟨T, stocked.mono hon (.refl T) stocked.sound fun _ _ hs => hs, .refl T, ?_, ?_⟩⟩
  · have hle := modest.routines
    rw [Array.size_push] at hle
    omega
  · exact Array.getElem?_push_size

theorem stocks_conclude (trace : TraceStages) (lowered : Graph) (kind : UnitKind) (depth : Nat)
    (outer : Option String) (emitted : Program × CodeRecord) :
    Stocks P (conclude trace lowered kind depth outer emitted) fun code T e => Enters T e code (.program emitted.1) := by
  have hrest : ∀ {P}, Stocks P (do
      let entry ← defineRoutine emitted.1
      emitEvent (.compiled lowered.name kind depth outer lowered.instrs.size)
      Engine.onHeap .heap (Heap.allocCode entry 0 emitted.2) : CompileM Word) fun code T e =>
        Enters T e code (.program emitted.1) :=
    (stocks_defineRoutine emitted.1).bind fun entry => Stocks.bind
      ((still_emitEvent _).keeps fun hp haside => by rwa [haside.routines]) fun _ => stocks_allocCode fun _ _ _ hp => hp
  unfold conclude
  cases trace.machine
  · exact hrest
  · exact (still_emitEvent _).stocks (Q := fun _ _ _ => True) (fun _ _ => trivial) |>.bind fun _ => hrest

/-- Units that are compiled keep an engine stocked. -/
def StocksUnits (compile : UnitCompiler) : Prop :=
  ∀ g kind nested, Stocks (fun _ _ => True) (compile g kind nested) fun code T e => Compiled g T e code

theorem stocks_buildStub (hc : StocksUnits compile) (name : String) (source : StubSource) :
    Stocks P (buildStub compile name source) fun s T e => ∃ r, Calls T e s.function r ∧ Made name source r e := by
  have hfunction : ∀ code, Stocks (fun T e => ∃ r, Enters T e code r ∧ Made name source r e) (do
      let function ← Engine.onHeap .heap (Heap.allocBuiltinFunction code)
      return { function, code } : CompileM Stub) fun s T e => ∃ r, Calls T e s.function r ∧ Made name source r e :=
    fun code => Stocks.bind (Q := fun f T e => ∃ r, Calls T e f r ∧ Made name source r e)
      (stocks_function Made.mono fun _ _ hp => hp) fun _ => .pure fun _ _ hp => hp
  refine Stocks.withScope ?_ fun hq haside => ?_
  · cases source with
    | host =>
      exact ((stocks_allocCode fun _ _ stocked _ => ⟨by decide, stocked.host⟩).weaken (fun _ _ h => h)
        fun _ _ _ h => ⟨_, h, rfl⟩).bind hfunction
    | body body =>
      have hbuild : Stocks (fun _ _ => True) (buildGraph (Builder.build name body)) fun g _ _ =>
          Builder.build name body = .ok g :=
        (still_buildGraph _).stocks fun hok _ => (stubs_of_buildGraph hok).1
      have hcompile : ∀ g, Stocks (fun _ _ => Builder.build name body = .ok g) (compile g .stub #[])
          fun code T e => ∃ r, Enters T e code r ∧ Made name (.body body) r e := by
        intro g e code e' hok
        obtain ⟨hon, hstock⟩ := hc g .stub #[] _ _ _ hok
        refine ⟨hon, fun modest T stocked hg => ?_⟩
        obtain ⟨T', stocked', carried, p, e₀, henters, htrap, hemits, hon₀⟩ := hstock modest T stocked trivial
        exact ⟨T', stocked', carried, _, henters, p, e₀, rfl, htrap, hemits.generated hg, hon₀⟩
      exact hbuild.bind fun g => (hcompile g).bind hfunction
  · obtain ⟨r, hcalls, hmade⟩ := hq
    exact ⟨r, hcalls.mono haside.goesOn (.refl _), hmade.mono haside.goesOn⟩

theorem stocks_newCache (hc : StocksUnits compile) (kind : CacheKind) :
    Stocks P (newCache compile kind) fun _ _ _ => True := by
  refine Stocks.withScope ?_ fun _ _ => trivial
  refine Stocks.bind (Q := fun _ _ _ => True) ((still_buildGraph _).stocks fun _ _ => trivial) fun g => ?_
  refine (hc g .cache #[]).bind fun code => ?_
  refine Stocks.bind (Q := fun _ _ _ => True) ?_ fun f => ?_
  · refine (stocks_function (S := fun _ _ => True) (fun _ _ => trivial) fun T e hcode => ?_).weaken (fun _ _ h => h)
      fun _ _ _ _ => trivial
    obtain ⟨p, e₀, henters, -⟩ := hcode
    exact ⟨_, henters, trivial⟩
  · have hinsert : Still (modify fun e : Engine => { e with caches := e.caches.insert f { kind, code } } : CompileM Unit) :=
      .modify fun e => ⟨rfl, rfl, rfl, rfl, ⟨e.heap.scopes, rfl⟩, rfl⟩
    exact Stocks.bind (Q := fun _ _ _ => True) (hinsert.stocks fun _ _ => trivial) fun _ => .pure fun _ _ _ => trivial

/-- A stub is compiled once, and then it is there. -/
theorem stocks_stub (hc : StocksUnits compile) (grounding : Grounding compile) (name : String) :
    Stocks P (stub compile name) fun s _ e => e.stubs.compiled? name = some s := by
  intro e s e' h
  have hfound := compiled_of_stub h
  cases hnew : e.stubs.compiled? name with
  | some s' =>
    rw [stub_of_compiled hnew] at h
    cases h
    exact ⟨.refl e, fun _ T stocked _ => ⟨T, stocked, .refl T, hfound⟩⟩
  | none =>
    cases hdeclared : e.stubs.declared[name]? with
    | none =>
      rw [stub_of_undeclared hnew hdeclared] at h
      cases h
    | some source =>
      rw [stub_of_declared hnew hdeclared] at h
      by_cases hmem : name ∈ e.stubs.inProgress
      · rw [marking_busy _ hmem] at h
        cases h
      · cases hbuild : buildStub compile name source (e.marked name) with
        | error err t =>
          rw [marking_error hmem hbuild] at h
          cases h
        | ok s' t =>
          rw [marking_ok hmem hbuild] at h
          cases h
          have hmarked : Aside e (e.marked name) := ⟨rfl, rfl, rfl, rfl, ⟨e.heap.scopes, rfl⟩, rfl⟩
          obtain ⟨hon, hstock⟩ := stocks_buildStub (P := fun _ _ => True) hc name source _ _ _ hbuild
          -- Nothing has compiled the stub meanwhile.
          have hbusy : t.stubs.compiled? name = none := by
            have hgrows := remembering_buildStub grounding name source (e.marked name)
            rw [finalState_ok hbuild] at hgrows
            exact (hgrows.busy name Std.TreeSet.mem_insert_self).trans hnew
          have hfinish : ∀ other, other ≠ name →
              (t.stubs.finish name (some s)).compiled? other = t.stubs.compiled? other := fun other hne =>
            Std.TreeMap.getElem?_insert.trans (if_neg fun hsame => hne (Std.compare_eq_iff_eq.mp hsame).symm)
          have hlast : GoesOn t { t with stubs := t.stubs.finish name (some s) } := by
            refine ⟨rfl, rfl, rfl, fun other s' hs => ?_, .refl _, fun _ _ hr => hr⟩
            change (t.stubs.finish name (some s)).compiled? other = some s'
            rw [hfinish other (by rintro rfl; rw [hbusy] at hs; cases hs), hs]
          refine ⟨(hmarked.goesOn.trans hon).trans hlast, fun modest T stocked _ => ?_⟩
          obtain ⟨T', stocked', carried, r, hcalls, hmade⟩ :=
            hstock (hlast.modest modest) T (hmarked.stocked stocked) trivial
          refine ⟨T', ⟨⟨stocked'.laid, hlast.declared.trans stocked'.declared, stocked'.host, fun {other s'} hs => ?_⟩,
            stocked'.sound⟩, carried, hfound⟩
          by_cases hne : other = name
          · subst hne
            obtain rfl : s = s' := Option.some.inj (Std.TreeMap.getElem?_insert_self.symm.trans hs)
            exact ⟨source, r, by rw [hlast.declared, hon.declared]; exact hdeclared, hcalls.mono hlast (.refl T'),
              hmade.mono hlast⟩
          · obtain ⟨source', r', hsource, hcalls', hmade'⟩ := stocked'.stubs ((hfinish other hne).symm.trans hs)
            exact ⟨source', r', hsource, hcalls'.mono hlast (.refl T'), hmade'.mono hlast⟩

theorem stocks_resolve (hc : StocksUnits compile) (grounding : Grounding compile) (nested : Array (Option Word))
    (c : Const) : Stocks P (resolve compile nested c) fun _ _ _ => True := by
  have hpure : ∀ {P : Contents → Engine → Prop} w, Stocks P (pure w : CompileM Word) fun _ _ _ => True :=
    fun w => .pure fun _ _ _ => trivial
  have hget : ∀ f : Engine → Word, Stocks P (do return f (← get) : CompileM Word) fun _ _ _ => True :=
    fun f => .get_bind fun e => hpure (f e)
  unfold resolve
  split
  · exact hpure _
  · split
    · exact hpure _
    · exact stocks_number _
  · exact stocks_number _
  · exact (stocks_string _).weaken (fun _ _ h => h) fun _ _ _ _ => trivial
  iterate 4 exact hget _
  iterate 2 exact hpure _
  · exact (stocks_stub hc grounding _).bind fun _ => hpure _
  · exact Stocks.bind (Q := fun _ _ _ => True) ((still_liftExcept _).stocks fun _ _ => trivial) fun _ => hpure _
  · split
    · exact hpure _
    · exact .throw
  · exact hget _
  · exact stocks_newCache hc _
  iterate 3 exact .throw

theorem stocks_run (hc : StocksUnits compile) (grounding : Grounding compile) (nested : Array (Option Word))
    (q : Inquiry α) : Stocks P (q.run (resolve compile nested)) fun _ _ _ => True := by
  induction q generalizing P with
  | done a => exact .pure fun _ _ _ => trivial
  | fail err => exact .throw
  | ask c next ih => exact (stocks_resolve hc grounding nested c).bind fun w => ih w

theorem trapOnEntry_of_emission {g : Graph} {trap : Bool} {resolve : Const → CompileM Word} {p : Program}
    {record : CodeRecord} (h : (emission g trap).run resolve e = .ok (p, record) e') : p.trapOnEntry = trap := by
  unfold emission at h
  cases horder : g.reversePostorder with
  | error err =>
    rw [horder] at h
    cases h
  | ok order =>
    simp only [horder] at h
    cases hphi : phiError? g order with
    | some err =>
      rw [hphi] at h
      cases h
    | none =>
      simp only [hphi, Inquiry.run_bind] at h
      obtain ⟨r, t, -, hdone⟩ := bind_eq_ok.mp h
      cases hdone
      rfl

end

theorem stocks_compileNested (nesting : Nat) : StocksUnits (compileNested nesting) := by
  induction nesting with
  | zero => exact fun _ _ _ => .throw
  | succ nesting ih =>
    rw [compileNested_succ]
    intro g kind nested e code e' h
    rw [compileStep_apply] at h
    obtain ⟨t, hinside, hleave⟩ := withContext_eq_ok h
    obtain ⟨lowered, start, hprepare, hrest⟩ := bind_eq_ok.mp ((get_bind _).symm.trans hinside)
    obtain ⟨⟨p, record⟩, e₀, hemit, hconclude⟩ := bind_eq_ok.mp ((get_bind _).symm.trans hrest)
    obtain ⟨rfl, -⟩ := like_of_prepare hprepare
    have hcontext : Aside e (e.inContext { unit := g.name, kind }) := ⟨rfl, rfl, rfl, rfl, ⟨e.heap.scopes, rfl⟩, rfl⟩
    have hstart := hcontext.trans (still_prepare _ _ _ _ _ _ hprepare)
    obtain ⟨hon₀, hstock₀⟩ := stocks_run (P := fun _ _ => True) ih (grounding_compileNested nesting) nested _ _ _ _ hemit
    obtain ⟨hon, hstock⟩ := stocks_conclude (P := fun _ _ => True) _ _ _ _ _ _ _ _ _ hconclude
    refine ⟨((hstart.goesOn.trans hon₀).trans hon).trans hleave.goesOn, fun modest T stocked _ => ?_⟩
    have modest' := hleave.goesOn.modest modest
    obtain ⟨T₀, stocked₀, carried₀, -⟩ := hstock₀ (hon.modest modest') T (hstart.stocked stocked) trivial
    obtain ⟨T', stocked', carried, henters⟩ := hstock modest' T₀ stocked₀ trivial
    have htrap : p.trapOnEntry = t.config.trapOnEntry := by
      rw [hon.config, hon₀.config]
      exact trapOnEntry_of_emission hemit
    rw [run_emission] at hemit
    exact ⟨T', hleave.stocked stocked', carried₀.trans carried, Compiled.mono ⟨p, e₀, henters, htrap,
      ⟨_, nesting, nested, start, record, rfl, rfl, hemit⟩, hon⟩ hleave.goesOn (.refl T')⟩

theorem stocks_getStub {P : Contents → Engine → Prop} (name : String) :
    Stocks P (getStub name) fun s _ e => e.stubs.compiled? name = some s := by
  intro e s e' h
  exact stocks_stub (stocks_compileNested _) (grounding_compileNested _) name _ _ _ ((get_bind _).symm.trans h)

/-! ### Creation -/

/-- The global object is there. -/
def HasGlobal (T : Contents) (e : Engine) : Prop := ∃ s st rest, T e.global = some (.object s st rest)

theorem HasGlobal.mono (h : HasGlobal T e) (carried : Carried T T') (on : GoesOn e e') : HasGlobal T' e' := by
  obtain ⟨s, st, rest, hglobal⟩ := h
  obtain ⟨s', st', rest', hglobal', -⟩ := carried.objects hglobal
  exact ⟨s', st', rest', by rwa [on.global]⟩

theorem stocks_installBuiltins : Stocks HasGlobal installBuiltins fun _ _ _ => True := by
  have hstub : ∀ name, Stocks HasGlobal (getStub name) fun s T e => e.stubs.compiled? name = some s ∧ HasGlobal T e :=
    fun name => ((stocks_getStub (P := fun _ _ => True) name).carry HasGlobal.mono).weaken (fun _ _ h => ⟨trivial, h⟩)
      fun _ _ _ h => h
  have hnoop : Stocks HasGlobal (discard (getStub "noop")) fun _ => HasGlobal :=
    (hstub "noop").bind fun _ => .pure fun _ _ h => h.2
  refine hnoop.bind fun _ => (hstub "log").bind fun log => Stocks.bind
    (((stocks_string (P := fun _ _ => True) "log").carry (F := fun T e => e.stubs.compiled? "log" = some log ∧ HasGlobal T e)
      fun h carried on => ⟨on.compiled _ _ h.1, h.2.mono carried on⟩).weaken (fun _ _ h => ⟨trivial, h⟩) fun _ _ _ h => h)
    fun key => .get_bind fun t => stocks_setProperty fun T e stocked hp => ?_
  obtain ⟨⟨hkey, hlog, hglobal⟩, rfl⟩ := hp
  obtain ⟨_, _, -, ⟨s, st, code, more, hf, -⟩, -⟩ := stocked.stubs hlog
  exact ⟨hglobal, .inr (.inr (.inl ⟨_, hkey⟩)), .inr (.inr (.inr ⟨_, _, _, hf⟩))⟩

/-- A new engine is stocked. -/
theorem stocked_create {config : Config} (slack : config.heap.pageSlack ≤ 2 ^ 62) (h : create config = .ok e)
    (modest : Modest e) : ∃ T, Stocked T e := by
  unfold create at h
  cases hheap : Heap.create config.heap with
  | error err =>
    rw [hheap] at h
    cases h
  | ok heap =>
    simp only [hheap, pure_bind] at h
    split at h
    · rename_i u t hact
      cases h
      obtain ⟨T, sound⟩ := Heap.create_sound slack hheap
      obtain ⟨global, t₁, hglobal, hact⟩ := bind_eq_ok.mp hact
      obtain ⟨heap₁, hnew, rfl⟩ := onHeap_eq_ok.mp hglobal
      obtain ⟨_, t₂, hroot, hact⟩ := bind_eq_ok.mp hact
      obtain ⟨heap₂, hrooted, rfl⟩ := onHeap_eq_ok.mp hroot
      obtain ⟨T₁, sound₁, -, -, record⟩ := Heap.newGlobal_sound sound hnew
      obtain ⟨sound₂, -⟩ := sound₁.root hrooted
      obtain ⟨hon, hstock⟩ := stocks_installBuiltins _ _ _ ((modify_bind _ _).symm.trans hact)
      have hstart : Stocked T₁ { config, heap := heap₂, stubs := StubLibrary.standard, global } := by
        refine ⟨⟨sound₂.typed.laid, rfl, rfl, fun {name s} hs => ?_⟩, _, sound₂⟩
        rw [show StubLibrary.standard.compiled? name = none from Std.TreeMap.getElem?_emptyc] at hs
        cases hs
      obtain ⟨s, st, rest, flags, hcell, -⟩ := record
      obtain ⟨T', stocked, -⟩ := hstock modest T₁ hstart ⟨s, st, rest, hcell⟩
      exact ⟨T', stocked⟩
    · cases h

/-! ### Requests for stubs -/

/-- No text of an engine is longer than memory, and neither is its machine code. -/
def isModest (e : Engine) : Bool :=
  e.heap.strings.toList.all (fun p => p.1.utf8ByteSize < 2 ^ 63) && decide (e.routines.size ≤ 2 ^ 64)

theorem modest_of_isModest (h : isModest e = true) : Modest e := by
  unfold isModest at h
  rw [Bool.and_eq_true, List.all_eq_true, decide_eq_true_eq] at h
  refine ⟨fun text w hw => ?_, h.2⟩
  have hmem : (text, w) ∈ e.heap.strings.toList := Std.TreeMap.mem_toList_iff_getElem?_eq_some.mpr hw
  simpa using h.1 _ hmem

/-- Ask for stubs, one after the other. -/
def getStubs : List String → CompileM Unit
  | [] => pure ()
  | name :: rest => do
    discard (getStub name)
    getStubs rest

theorem stocks_getStubs (names : List String) :
    Stocks (fun _ _ => True) (getStubs names) fun _ _ e => ∀ name ∈ names, ∃ s, e.stubs.compiled? name = some s := by
  induction names with
  | nil => exact .pure fun _ _ _ => nofun
  | cons name rest ih =>
    unfold getStubs
    refine Stocks.bind (Q := fun _ _ e => ∃ s, e.stubs.compiled? name = some s) ?_ fun _ => ?_
    · refine Stocks.bind (stocks_getStub name) fun s => .pure fun _ _ hs => ⟨s, hs⟩
    · refine (Stocks.carry ih (F := fun _ e => ∃ s, e.stubs.compiled? name = some s) ?_).weaken (fun _ _ h => ⟨trivial, h⟩) ?_
      · exact fun ⟨s, hs⟩ _ hon => ⟨s, hon.compiled _ _ hs⟩
      · exact fun _ _ _ ⟨hrest, hname⟩ => List.forall_mem_cons.mpr ⟨hname, hrest⟩

/-- A new engine, after it was asked for stubs. -/
def supplied (config : Config) (names : List String) : Option Engine := do
  let e ← (create config).toOption
  match (getStubs names).run e with
  | .ok _ e => some e
  | .error _ _ => none

theorem stocked_supplied {config : Config} {names : List String} (slack : config.heap.pageSlack ≤ 2 ^ 62)
    (h : supplied config names = some e) (modest : isModest e = true) :
    ∃ T, Stocked T e ∧ ∀ name ∈ names, ∃ s, e.stubs.compiled? name = some s := by
  unfold supplied at h
  obtain ⟨start, hstart, h⟩ := Option.bind_eq_some_iff.mp h
  cases hcreate : create config with
  | error err =>
    rw [hcreate] at hstart
    cases hstart
  | ok e' =>
    rw [hcreate] at hstart
    cases hstart
    split at h
    · rename_i u t hrun
      cases h
      obtain ⟨hon, hstock⟩ := stocks_getStubs names _ _ _ hrun
      have modest := modest_of_isModest modest
      obtain ⟨T, stocked⟩ := stocked_create slack hcreate (hon.modest modest)
      obtain ⟨T', stocked', -, hs⟩ := hstock modest T stocked trivial
      exact ⟨T', stocked', hs⟩
    · cases h

end Engine
end ScriptEngine
