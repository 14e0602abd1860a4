import ScriptEngine.Proofs.Meaning.Forks

/-!
Functions. A function gets its place when it is met, is built in a frame of its own, and its
graph is put into its place; whoever runs the graph gets what a call of the function gives.
-/

namespace ScriptEngine.Meaning

open State Construction Syntax

section

variable {V σ : Type} {S : Site V σ} {known : Names} {fs : List Function}
  {Γ : List (InstrId × V)}

theorem andThen_goOn (e : EvalM V σ Unit) (k : EvalM V σ (Exit V)) :
    andThen (goOn e) k = e >>= fun _ => k := by
  simp only [andThen, goOn, bind_assoc, pure_bind]

/-! ### Parameters -/

theorem simulates_arg (i : Nat) :
    Simulates S known [] Γ (build (Builder.arg i)) (pure (S.answerer.argument S.inputs i))
      Reading.value :=
  simulates_appended (fun _ _ _ h => build_emit_eq_ok h) (by simp)
    fun _ s ℓ id hw _ => ⟨S.answerer.argument S.inputs i, ℓ.world, rfl, by rw [← hw]; rfl⟩

theorem executes_bindParams (ht : S.topLevel = false) : ∀ (items : List Binding) (i : Nat)
    (known : Names), Executes S known [] Γ (some (items.flatMap Binding.names ++ known)) false
      (bindParams i items) (goOn (S.bindParams i items))
  | [], i, known => simulates_return.goOn
  | .name text :: rest, i, known => by
    have hone : Executes S known [] Γ (some (text :: known)) false
        (build (Builder.arg i) >>= envInsert (.name text))
        (pure (S.answerer.argument S.inputs i) >>= fun v => goOn (Site.setVar text v)) :=
      (simulates_arg i).executes fun id v _ => executes_insertName ht (by simp [Reading.value])
    rw [pure_bind] at hone
    have hall := hone.andThen (executes_bindParams ht rest (i + 1) (text :: known))
    rw [andThen_goOn] at hall
    have hsteps : bindParams i (.name text :: rest) =
        ((build (Builder.arg i) >>= envInsert (.name text)) >>= fun _ =>
          bindParams (i + 1) rest) := by
      rw [bindParams, bind_assoc]
    have heval : goOn (S.bindParams i (.name text :: rest)) =
        (Site.setVar text (S.answerer.argument S.inputs i) >>= fun _ =>
          goOn (S.bindParams (i + 1) rest)) := by
      rw [Site.bindParams, goOn, bind_assoc]
    rw [hsteps, heval]
    refine hall.congr fun name => ?_
    rw [List.flatMap_cons, show Binding.names (.name text) = [text] from rfl]
    simp only [List.mem_append, List.mem_cons, List.not_mem_nil, or_false]
    tauto
  | .pattern :: rest, i, known => by
    intro c u c' _ _ h
    exact (throw_eq_ok.mp h).elim

theorem simulates_setParams (n : Nat) :
    Simulates S known [] Γ (build (modify fun b => { b with graph.params := n })) (pure ())
      Reading.nothing := by
  intro c u c' hr hb h
  obtain ⟨b, hmod, rfl⟩ := build_eq_ok.mp h
  obtain rfl := modify_eq_ok.mp hmod
  have hg : Grows c (c.withGraph { c.graph with params := n }) :=
    ⟨rfl, fun _ _ => rfl, le_rfl, le_rfl, fun _ _ _ => rfl, fun _ B h => ⟨B, h, List.prefix_rfl⟩⟩
  refine ⟨hg.builds hr.valid, hg.ready hr, ⟨⟨⟨⟩, trivial⟩, by simp [Reading.nothing]⟩, ?_⟩
  intro functions G O _ s ℓ hs _
  exact ⟨s, Leads.refl, ⟨hs.vars, hs.completion, hs.world⟩, Kept.refl _ _, trivial,
    by simp [Reading.nothing]⟩

theorem executes_params (ht : S.topLevel = false) (ps : Params) :
    Executes S [] [] Γ (some (ps.items.flatMap Binding.names)) false (params ps)
      (goOn (S.bindParams 0 ps.items)) := by
  unfold params
  by_cases hrest : ps.rest
  · rw [if_pos hrest]
    intro c u c' _ _ h
    obtain ⟨_, _, hthrow, -⟩ := bind_eq_ok.mp h
    exact (throw_eq_ok.mp hthrow).elim
  · rw [if_neg hrest]
    have hbind := executes_bindParams (Γ := Γ) ht ps.items 0 []
    rw [List.append_nil] at hbind
    have hall := hbind.andThen (simulates_setParams ps.items.length).goOn
    rw [andThen_goOn] at hall
    simp only [pure_bind, goOn] at hall ⊢
    exact hall

/-! ### The end of a function -/

/-- After steps that have returned on all ways, steps that do nothing then do not matter. -/
theorem Executes.stopped {m m' : ConstructM Unit} {e k : EvalM V σ (Exit V)} {carry : Bool}
    (h : Executes S known fs Γ none carry m e)
    (hdone : ∀ c, c.frame.done = true → m' c = .ok ⟨⟩ c) :
    Executes S known fs Γ none carry (m >>= fun _ => m') (Meaning.andThen e k) := by
  intro c u c₂ hr hb hm
  obtain ⟨_, c₁, hm₁, hm₂⟩ := bind_eq_ok.mp hm
  obtain ⟨hB, hd, -, hf⟩ := h c _ c₁ hr hb hm₁
  rw [hdone c₁ hd] at hm₂
  cases hm₂
  refine ⟨hB, hd, by simp, fun functions G O hw s ℓ hs hΓ => ?_⟩
  have hfollows := hf functions G O hw s ℓ hs hΓ
  rw [run_andThen]
  cases hout : e.run ℓ with
  | mk exit ℓ₁ =>
    rw [hout] at hfollows
    cases exit with
    | returned v => exact hfollows
    | next carried => exact absurd hfollows.1 (by simp)

/-- A function that has not returned returns at its end. -/
theorem Executes.ended {m m' : ConstructM Unit} {e k : EvalM V σ (Exit V)}
    {after : Option Names} (h : Executes S known fs Γ after false m e)
    (hlive : ∀ known', Executes S known' [] Γ none false m' k)
    (hdone : ∀ c, c.frame.done = true → m' c = .ok ⟨⟩ c) :
    Executes S known fs Γ none false (m >>= fun _ => m') (Meaning.andThen e k) := by
  cases after with
  | some known' =>
    have hall := h.andThen (hlive known')
    rw [List.append_nil] at hall
    exact hall
  | none => exact h.stopped hdone

/-- Return `undefined`. -/
theorem executes_retUndefined :
    Executes S known [] Γ none false retUndefined
      (S.constant .undefined >>= fun v => pure (.returned v)) := by
  have hret : Executes S known ([] ++ []) Γ none false (literal .undefined >>= ret)
      (S.constant .undefined >>= fun v => pure (.returned v)) :=
    (simulates_literal .undefined).executes fun id v _ => executes_ret (by simp [Reading.value])
  refine hret.of_eq fun c hr => ?_
  change (if (!c.frame.done) = true then literal .undefined >>= ret else pure ()) c = _
  rw [hr.running]
  rfl

theorem retUndefined_of_done {c : Construction} (h : c.frame.done = true) :
    retUndefined c = .ok ⟨⟩ c := by
  change (if (!c.frame.done) = true then literal .undefined >>= ret else pure ()) c = _
  rw [h]
  rfl

end

/-! ### Functions in their places -/

section

variable {V σ : Type}

/-- The steps of evaluation that a call of a function takes. -/
def Site.call (S : Site V σ) (ps : Params) (content : Body) : EvalM V σ (Exit V) :=
  S.bindParams 0 ps.items >>= fun _ =>
    andThen (Outcome.exit <$> S.body (ps.items.flatMap Binding.names) content)
      (S.constant .undefined >>= fun v => pure (.returned v))

theorem run_exit_andThen (e : EvalM V σ (Outcome V)) (k : EvalM V σ (Exit V)) (ℓ : Locals V σ) :
    (andThen (Outcome.exit <$> e) k).run ℓ =
      (andThen (pure (e.run ℓ).1.exit) k).run (e.run ℓ).2 := rfl

theorem evalFunction_eq (A : Answerer V σ) (inputs : Inputs V) (s : σ) (name : Option String)
    (ps : Params) (content : Body) :
    let S : Site V σ := { answerer := A, inputs, topLevel := false }
    ∃ v ℓ, (S.call ps content).run (S.start s) = (.returned v, ℓ) ∧
      evalFunction A inputs s (.mk name ps content) = (v, ℓ.world) := by
  intro S
  have hcall : (S.call ps content).run (S.start s) =
      (andThen (Outcome.exit <$> S.body (ps.items.flatMap Binding.names) content)
        (S.constant .undefined >>= fun v => pure (.returned v))).run
          ((S.bindParams 0 ps.items).run (S.start s)).2 := rfl
  have hbody : (S.bindParams 0 ps.items >>= fun _ =>
        S.body (ps.items.flatMap Binding.names) content) (S.start s) =
      (S.body (ps.items.flatMap Binding.names) content).run
        ((S.bindParams 0 ps.items).run (S.start s)).2 := rfl
  unfold evalFunction
  simp only
  rw [hcall, run_exit_andThen, hbody]
  generalize (S.body (ps.items.flatMap Binding.names) content).run
    ((S.bindParams 0 ps.items).run (S.start s)).2 = r
  obtain ⟨outcome, ℓ⟩ := r
  cases outcome with
  | returned v => exact ⟨v, ℓ, rfl, rfl⟩
  | next => exact ⟨A.undefined, ℓ, rfl, rfl⟩

/-- A frame in which a function starts. -/
theorem ready_start (graphs : Array (Option Graph)) (name : String) :
    Ready false [] false { graphs, frame := { builder := Builder.start name } } where
  topLevel := rfl
  running := rfl
  valid := by simp [Builder.start, Graph.addBlock]
  bound x id h := by simp [Env.get?] at h
  scope name := by simp [Env.get?]
  outside _ := rfl
  completion h := by cases h
  result := rfl

theorem matches_start (S : Site V σ) (ht : S.topLevel = false) (graphs : Array (Option Graph))
    (name : String) (s : σ) :
    Matches S { graphs, frame := { builder := Builder.start name } }
      { regs := fun _ => S.answerer.undefined, world := s } (S.start s) where
  vars _ := rfl
  completion h := by rw [ht] at h; cases h
  world := rfl

/-- The graph of a function computes the function, if the steps that built it simulate a call. -/
theorem means_of_executes {fs : List Function} {name : Option String} {text : String}
    {ps : Params} {content : Body} {m : ConstructM Unit} {graphs : Array (Option Graph)}
    {c : Construction} {u : Unit} {functions : Nat → Function}
    (h : ∀ {V σ : Type} (S : Site V σ), S.topLevel = false →
      Executes S [] fs [] none false m (S.call ps content))
    (hm : m { graphs, frame := { builder := Builder.start text } } = .ok u c)
    (hn : Numbered functions graphs.size fs) :
    Means functions c.graph (.mk name ps content) := by
  intro V σ A inputs s
  obtain ⟨v, ℓ, hrun, heval⟩ := evalFunction_eq A inputs s name ps content
  obtain ⟨-, -, -, hf⟩ := h { answerer := A, inputs, topLevel := false } rfl _ u c
    (ready_start graphs text) (by simp) hm
  have hw : Within functions fs { graphs, frame := { builder := Builder.start text } } c c.graph
      fun _ => False :=
    ⟨hn, id, fun _ h => h.elim, Extends.refl _ _⟩
  have hfollows := hf functions c.graph _ hw _ _ (matches_start _ rfl graphs text s) (by simp)
  rw [hrun] at hfollows
  rw [heval]
  exact hfollows c.graph.blocks.size (by omega)

theorem inFrame_eq_ok {index : Nat} {frame : Frame} {m : ConstructM Unit} {c c' : Construction}
    {u : Unit} (h : inFrame index frame m c = .ok u c') :
    ∃ t, m { c with frame } = .ok ⟨⟩ t ∧
      c' = { graphs := t.graphs.setIfInBounds index (some t.graph), frame := c.frame } := by
  obtain ⟨_, _, hget, h⟩ := bind_eq_ok.mp h
  obtain ⟨rfl, rfl⟩ := get_eq_ok.mp hget
  obtain ⟨_, _, hmod, h⟩ := bind_eq_ok.mp h
  obtain rfl := modify_eq_ok.mp hmod
  obtain ⟨_, t, hm, h⟩ := bind_eq_ok.mp h
  obtain rfl := modify_eq_ok.mp h
  exact ⟨t, hm, rfl⟩

theorem reserve_eq_ok {c c' : Construction} {index : Nat} (h : reserve c = .ok index c') :
    index = c.graphs.size ∧ c' = { c with graphs := c.graphs.push none } := by
  obtain ⟨_, _, hget, h⟩ := bind_eq_ok.mp h
  obtain ⟨rfl, rfl⟩ := get_eq_ok.mp hget
  obtain ⟨_, _, hmod, h⟩ := bind_eq_ok.mp h
  obtain rfl := modify_eq_ok.mp hmod
  obtain ⟨rfl, rfl⟩ := pure_eq_ok.mp h
  exact ⟨rfl, rfl⟩

/-- A graph is put into the place that was reserved before the functions inside it were built. -/
theorem Adds.place {fs : List Function} {f : Function} {g : Graph}
    {gs gs' : Array (Option Graph)} (h : Adds fs (gs.push none) gs')
    (hg : ∀ functions, Numbered functions (gs.size + 1) fs → Means functions g f) :
    Adds (f :: fs) gs (gs'.setIfInBounds gs.size (some g)) := by
  have hsize : gs'.size = gs.size + 1 + fs.length := by
    rw [h.size, Array.size_push]
  refine ⟨?_, ?_, ?_⟩
  · rw [Array.size_setIfInBounds, hsize, List.length_cons]
    omega
  · intro i hi
    rw [Array.getElem?_setIfInBounds_ne (by omega), h.old i (by simp; omega),
      Array.getElem?_push, if_neg hi.ne]
  · intro functions hn i f' hf
    have hall : Numbered functions gs.size ([f] ++ fs) := hn
    have hn' : Numbered functions (gs.size + 1) fs := hall.right
    cases i with
    | zero =>
      cases hf
      refine ⟨g, ?_, hg functions hn'⟩
      rw [Nat.add_zero, Array.getElem?_setIfInBounds_self_of_lt (by omega)]
    | succ i =>
      rw [List.getElem?_cons_succ] at hf
      obtain ⟨g', hg', hm⟩ := h.new functions (by rwa [Array.size_push]) i f' hf
      refine ⟨g', ?_, hm⟩
      rw [Array.getElem?_setIfInBounds_ne (by omega), ← hg', Array.size_push]
      congr 1
      omega

/-- A function that is met is built, and the world is asked for a reference to it. -/
theorem simulates_closure {S : Site V σ} {known : Names} {fs : List Function}
    {Γ : List (InstrId × V)} {name : Option String} {ps : Params} {content : Body}
    (h : ∀ {V σ : Type} (S : Site V σ), S.topLevel = false → Executes S [] fs [] none false
      (do params ps; body content; retUndefined) (S.call ps content)) :
    Simulates S known (.mk name ps content :: fs) Γ (Construction.closure (.mk name ps content))
      (S.ask (.closure (.mk name ps content))) Reading.value := by
  intro c id c' hr hb hm
  unfold Construction.closure at hm
  obtain ⟨_, _, hres, hm⟩ := bind_eq_ok.mp hm
  obtain ⟨rfl, rfl⟩ := reserve_eq_ok hres
  obtain ⟨_, _, hframe, hemit⟩ := bind_eq_ok.mp hm
  obtain ⟨t, hbody, rfl⟩ := inFrame_eq_ok hframe
  obtain ⟨hv, rfl, rfl⟩ := emit_eq_ok hemit
  obtain ⟨hB, -, -, -⟩ := h { S with topLevel := false } rfl _ _ t
    (ready_start (c.graphs.push none) (name.getD "anonymous")) (by simp) hbody
  have hadds : Adds (.mk name ps content :: fs) c.graphs
      (t.graphs.setIfInBounds c.graphs.size (some t.graph)) := by
    refine hB.toAdds.place fun functions hn => ?_
    exact means_of_executes h hbody (by rwa [Array.size_push])
  have hg := grows_appended c (.script .closure) [.const (.function c.graphs.size)]
  have hbuilds := hg.builds hr.valid
  have hready := hg.ready hr
  refine ⟨⟨hadds, hbuilds.grown, hbuilds.moved, hbuilds.valid, hbuilds.topLevel⟩,
    ⟨hready.topLevel, hready.running, hready.valid, hready.bound, hready.scope, hready.outside,
      hready.completion, hready.result⟩, ⟨⟨S.answerer.undefined, trivial⟩, ?_⟩, ?_⟩
  · intro b _ p hp
    obtain rfl := List.mem_singleton.mp hp
    simp
  · intro functions G O hw s ℓ hs _
    have hf : functions c.graphs.size = .mk name ps content := hw.numbered 0 _ rfl
    have hp : perform S.answerer functions S.inputs s ⟨c.graph.instrs.size⟩ (.script .closure)
        [.const (.function c.graphs.size)] = some
          { s.setReg ⟨c.graph.instrs.size⟩ (S.answerer.answer (.closure (.mk name ps content))
              ℓ.world).1 with
            world := (S.answerer.answer (.closure (.mk name ps content)) ℓ.world).2 } := by
      simp only [perform, request?, Option.map_some, ask, hf, hs.world]
      rfl
    obtain ⟨s', hl, hs', hk, hval⟩ := reaches_value hr hw.finished (by simp) hs hp
    refine ⟨s', hl, ⟨hs'.vars, hs'.completion, hs'.world⟩, hk, trivial, fun p hp => ?_⟩
    obtain rfl := List.mem_singleton.mp hp
    exact hval

end

end ScriptEngine.Meaning
