import ScriptEngine.Proofs.Meaning.Walk

/-!
Graph construction preserves meaning: the graphs of a script run as the script and its functions
are evaluated, whatever the world answers.
-/

namespace ScriptEngine.Meaning

open State Construction Syntax

/-! ### The frame of a script -/

section

variable {V σ : Type} {S : Site V σ} {known : Names} {Γ : List (InstrId × V)}

/-- The last step of a script: return the value of the last expression statement. -/
def retCompletion (default : InstrId) : ConstructM Unit := do
  if !(← get).frame.done then ret ((← envGet? .completion).getD default)

theorem retCompletion_of_done (default : InstrId) {c : Construction}
    (h : c.frame.done = true) : retCompletion default c = .ok ⟨⟩ c := by
  change (if (!c.frame.done) = true then
    envGet? .completion >>= fun value => ret (value.getD default) else pure ()) c = _
  rw [h]
  rfl

theorem executes_retCompletion (default : InstrId) (ht : S.topLevel = true) :
    Executes S known [] Γ none false (retCompletion default)
      (do return .returned (← get).completion) := by
  intro c u c' hr hb h
  obtain ⟨id, hid⟩ := Option.isSome_iff_exists.mp (hr.completion ht)
  have hret : ret id c = .ok u c' := by
    rw [← h]
    change _ = (if (!c.frame.done) = true then
      envGet? .completion >>= fun value => ret (value.getD default) else pure ()) c
    rw [hr.running, Bool.not_false, if_pos rfl]
    change _ = ret ((c.frame.env.get? .completion).getD default) c
    rw [hid]
    rfl
  have hbound := hr.bound _ id hid
  have hex : ∀ v : V, Executes S known [] [(id, v)] none false (ret id) (pure (.returned v)) :=
    fun v => executes_ret (List.mem_singleton_self (id, v))
  obtain ⟨hB, hd, -, -⟩ := hex S.answerer.undefined c u c' hr (by simpa using hbound) hret
  refine ⟨hB, hd, by simp, fun functions G O hw s ℓ hs _ => ?_⟩
  obtain ⟨-, -, -, hf⟩ := hex ℓ.completion c u c' hr (by simpa using hbound) hret
  refine hf functions G O hw s ℓ hs ?_
  have hval := hs.completion ht
  rw [valueIn, hid] at hval
  simpa using hval

/-- The steps of evaluation that a script takes. -/
def Site.script (S : Site V σ) (list : List Stmt) : EvalM V σ (Exit V) :=
  andThen (Outcome.exit <$> (S.hoist list >>= fun _ => S.statements [] list))
    (do return .returned (← get).completion)

theorem executes_script (default : InstrId) (ht : S.topLevel = true) (list : List Stmt) :
    Executes S [] (scriptFunctions list) [] none false
      (do hoist list; statements list; retCompletion default) (S.script list) := by
  have hdeclare : declare S.topLevel (hoisted list) [] = [] := by
    rw [ht]
    rfl
  have hhoist := executes_hoist S [] list
  rw [hdeclare] at hhoist
  have hbody := hhoist.andThen (executes_statements S [] list)
  rw [andThen_goOn, ← map_bind] at hbody
  have hend := hbody.ended (fun _ => executes_retCompletion default ht)
    fun c => retCompletion_of_done default
  rw [bind_assoc] at hend
  exact hend

end

/-- The frame of a script, empty. -/
def scriptFrame (graphs : Array (Option Graph)) : Construction :=
  { graphs, frame := { builder := Builder.start "script", topLevel := true } }

/-- The frame of a script after its value so far is `undefined`. -/
def scriptStart (graphs : Array (Option Graph)) : Construction :=
  withEnv ((scriptFrame graphs).withGraph (appended (scriptFrame graphs).graph
    (scriptFrame graphs).here (.prim .literal) [.const .undefined])) [(.completion, ⟨0⟩)]

theorem script_eq_ok {list : List Stmt} {c c' : Construction} {u : Unit}
    (h : script list c = .ok u c') :
    ∃ t, (do hoist list; statements list; retCompletion ⟨0⟩ : ConstructM Unit)
        (scriptStart (c.graphs.push none)) = .ok ⟨⟩ t ∧
      c'.graphs = t.graphs.setIfInBounds c.graphs.size (some t.graph) := by
  obtain ⟨_, _, hres, h⟩ := bind_eq_ok.mp h
  obtain ⟨rfl, rfl⟩ := reserve_eq_ok hres
  obtain ⟨t, hbody, rfl⟩ := inFrame_eq_ok h
  obtain ⟨_, _, hlit, hbody⟩ := bind_eq_ok.mp hbody
  obtain ⟨-, rfl, rfl⟩ := build_emit_eq_ok hlit
  obtain ⟨_, _, hins, hbody⟩ := bind_eq_ok.mp hbody
  obtain rfl := envInsert_eq_ok.mp hins
  exact ⟨t, hbody, rfl⟩

theorem ready_scriptStart (graphs : Array (Option Graph)) :
    Ready true [] false (scriptStart graphs) where
  topLevel := rfl
  running := rfl
  valid := by
    change 0 < (appended (scriptFrame graphs).graph _ _ _).blocks.size
    rw [appended_blocks_size]
    simp [scriptFrame, Builder.start, Graph.addBlock]
  bound x id h := by
    change Env.get? [(.completion, ⟨0⟩)] x = some id at h
    rw [get?_cons] at h
    split at h
    · cases h
      change 0 < (appended (scriptFrame graphs).graph _ _ _).instrs.size
      rw [appended_instrs_size]
      exact Nat.succ_pos _
    · simp [Env.get?] at h
  scope name := by
    change (Env.get? [(.completion, ⟨0⟩)] (.name name)).isSome ↔ _
    simp [Env.get?]
  outside _ := rfl
  completion _ := rfl
  result := rfl

theorem evalScript_eq {V σ : Type} (A : Answerer V σ) (inputs : Inputs V) (s : σ)
    (list : List Stmt) :
    let S : Site V σ := { answerer := A, inputs, topLevel := true }
    ∃ v ℓ, (S.script list).run (S.start s) = (.returned v, ℓ) ∧
      evalScript A inputs s list = (v, ℓ.world) := by
  intro S
  have hbody : (S.hoist list >>= fun _ => S.statements [] list) (S.start s) =
      (S.hoist list >>= fun _ => S.statements [] list).run (S.start s) := rfl
  unfold evalScript Site.script
  simp only
  rw [run_exit_andThen, hbody]
  generalize (S.hoist list >>= fun _ => S.statements [] list).run (S.start s) = r
  obtain ⟨outcome, ℓ⟩ := r
  cases outcome with
  | returned v => exact ⟨v, ℓ, rfl, rfl⟩
  | next => exact ⟨ℓ.completion, ℓ, rfl, rfl⟩

/-- The graph of a script runs as the script is evaluated. -/
theorem runGraph_script {list : List Stmt} {graphs : Array (Option Graph)} {t : Construction}
    {functions : Nat → Function}
    (h : (do hoist list; statements list; retCompletion ⟨0⟩ : ConstructM Unit)
      (scriptStart graphs) = .ok ⟨⟩ t)
    (hn : Numbered functions graphs.size (scriptFunctions list))
    {V σ : Type} (A : Answerer V σ) (inputs : Inputs V) (s : σ) :
    runGraph A functions t.graph inputs s = some (evalScript A inputs s list) := by
  let S : Site V σ := { answerer := A, inputs, topLevel := true }
  have hex : Executes S [] (scriptFunctions list) [] none false _ (S.script list) :=
    executes_script ⟨0⟩ rfl list
  obtain ⟨hB, -, -, hf⟩ := hex _ _ t (ready_scriptStart graphs) (by simp) h
  have hw : Within functions (scriptFunctions list) (scriptStart graphs) t t.graph fun _ => False :=
    ⟨hn, id, fun _ h => h.elim, Extends.refl _ _⟩
  -- The first instruction makes the value so far `undefined`.
  have hG : Finished (appended (scriptFrame graphs).graph (scriptFrame graphs).here
      (.prim .literal) [.const .undefined]) t.graph fun _ => True :=
    hw.finished.earlier hB.grown fun _ _ _ => trivial
  let s₀ : Activity V σ := { regs := fun _ => A.undefined, world := s }
  let s₁ := s₀.setReg ⟨(scriptFrame graphs).graph.instrs.size⟩ A.undefined
  have hl : Reaches S functions t.graph (scriptFrame graphs) s₀ (scriptStart graphs) s₁ :=
    reaches_appended (by simp [scriptFrame, Builder.start, Graph.addBlock]) hG (by simp) rfl
  have hmatch : Matches S (scriptStart graphs) s₁ (S.start s) := by
    refine ⟨fun name => ?_, fun _ => ?_, rfl⟩
    · change valueIn A [(.completion, ⟨0⟩)] s₁.regs (.name name) = A.undefined
      rw [valueIn, get?_cons, if_neg (by simp)]
      rfl
    · change s₁.regs ⟨0⟩ = A.undefined
      simp only [s₁, s₀, Activity.setReg, ite_self]
  have hfollows := hf functions t.graph _ hw s₁ _ hmatch (by simp)
  obtain ⟨v, ℓ, hrun, heval⟩ := evalScript_eq A inputs s list
  rw [hrun] at hfollows
  rw [heval]
  exact Leads.returns hl hfollows t.graph.blocks.size (by omega)

/-! ### All graphs of a script -/

/-- A script builds the graphs of its functions. -/
theorem adds_script {list : List Stmt} {graphs : Array (Option Graph)} {t : Construction}
    (h : (do hoist list; statements list; retCompletion ⟨0⟩ : ConstructM Unit)
      (scriptStart graphs) = .ok ⟨⟩ t) : Adds (scriptFunctions list) graphs t.graphs := by
  -- What is built does not depend on the world, so the smallest one will do.
  let A : Answerer Unit Unit :=
    { constant := fun _ => ⟨⟩, answer := fun _ _ => ⟨⟨⟩, ⟨⟩⟩, truth := fun _ _ => ⟨true, ⟨⟩⟩ }
  let S : Site Unit Unit := { answerer := A, inputs := ⟨⟨⟩, []⟩, topLevel := true }
  have hex : Executes S [] (scriptFunctions list) [] none false _ (S.script list) :=
    executes_script ⟨0⟩ rfl list
  exact (hex _ _ t (ready_scriptStart graphs) (by simp) h).1.toAdds

/-- Numbered entries that are read one by one are the ones that were read. -/
theorem mapM_zipIdx_eq_ok {read : Option Graph × Nat → Except SourceError Graph}
    (hread : ∀ p g, read p = .ok g → p.1 = some g) :
    ∀ (l : List (Option Graph)) (n : Nat) (graphs : List Graph),
      (l.zipIdx n).mapM read = .ok graphs → l = graphs.map some := by
  intro l
  induction l with
  | nil =>
    intro n graphs h
    cases h
    rfl
  | cons graph rest ih =>
    intro n graphs h
    rw [List.zipIdx_cons, List.mapM_cons] at h
    cases hg : read (graph, n) with
    | error e => rw [hg] at h; cases h
    | ok g =>
      rw [hg] at h
      cases hrest : (rest.zipIdx (n + 1)).mapM read with
      | error e => rw [hrest] at h; cases h
      | ok graphs' =>
        rw [hrest] at h
        cases h
        obtain rfl : graph = some g := hread _ _ hg
        rw [ih (n + 1) graphs' hrest]
        rfl

theorem finish_eq_ok {array : Array (Option Graph)} {graphs : List Graph}
    (h : finish array = .ok graphs) : array.toList = graphs.map some := by
  refine mapM_zipIdx_eq_ok ?_ array.toList 0 graphs h
  rintro ⟨graph, i⟩ g hg
  cases graph with
  | none => cases hg
  | some g' =>
    cases hg
    rfl

/-- The function that a number refers to. -/
def functionAt (list : List Stmt) (index : Nat) : Function :=
  (scriptFunctions list).getD (index - 1) (.mk none { items := [] } (.statements []))

theorem numbered_functionAt (list : List Stmt) :
    Numbered (functionAt list) 1 (scriptFunctions list) := by
  intro i f hf
  unfold functionAt
  rw [Nat.add_sub_cancel_left, List.getD_eq_getElem?_getD, hf]
  rfl

/-- Construction preserves meaning: the script's graph and the graph of each of its functions run
as the tree is evaluated, whatever the world answers. -/
theorem graphsOf_preserves_meaning (list : List Stmt) (graphs : List Graph)
    (h : graphsOf list = .ok graphs) :
    graphs.length = (scriptFunctions list).length + 1 ∧
    (∀ g, graphs[0]? = some g → ∀ {V σ : Type} (A : Answerer V σ) (inputs : Inputs V) (s : σ),
      runGraph A (functionAt list) g inputs s = some (evalScript A inputs s list)) ∧
    ∀ i f g, (scriptFunctions list)[i]? = some f → graphs[i + 1]? = some g →
      ∀ {V σ : Type} (A : Answerer V σ) (inputs : Inputs V) (s : σ),
        runGraph A (functionAt list) g inputs s = some (evalFunction A inputs s f) := by
  unfold graphsOf at h
  cases hs : (script list).run { frame := { builder := Builder.start "" } } with
  | error e c => rw [hs] at h; cases h
  | ok u c =>
    rw [hs] at h
    obtain ⟨t, ht, hc⟩ := script_eq_ok hs
    have hn := numbered_functionAt list
    have hgraphs := finish_eq_ok h
    have hadds := adds_script ht
    have hget : ∀ i : Nat, (graphs[i]?).map some =
        (t.graphs.setIfInBounds 0 (some t.graph))[i]? := by
      intro i
      rw [← List.getElem?_map, ← hgraphs, hc, Array.getElem?_toList]
      rfl
    have hsize : t.graphs.size = 1 + (scriptFunctions list).length := hadds.size
    refine ⟨?_, fun g hg V σ A inputs s => ?_, fun i f g hf hg V σ A inputs s => ?_⟩
    · rw [← List.length_map some, ← hgraphs, hc, Array.length_toList, Array.size_setIfInBounds,
        hsize, Nat.add_comm]
    · have h₀ := hget 0
      rw [hg, Array.getElem?_setIfInBounds_self_of_lt (by omega)] at h₀
      cases h₀
      exact runGraph_script ht hn A inputs s
    · obtain ⟨g', hg', hm⟩ := hadds.new _ hn i f hf
      have hi := hget (i + 1)
      rw [hg, Array.getElem?_setIfInBounds_ne (by omega), Nat.add_comm] at hi
      have he : some (some g) = some (some g') := hi.trans hg'
      cases he
      exact hm A inputs s

/-- A function with a variable that only one arm of a branch declares, and a call of it. -/
def oneArmScript : List Stmt :=
  [.function (.mk (some "f") { items := [.name "a"] } (.statements
    [.branch (.name "a") (.declare [.mk (.name "b") (some (.name "a"))]) none,
      .ret (some (.name "b"))])),
    .expression (.call (.name "f") [.item .null])]

theorem oneArmScript_preserves_meaning :
    ∃ graphs, graphsOf oneArmScript = .ok graphs ∧ graphs.length = 2 ∧
      ∀ g, graphs[0]? = some g → ∀ {V σ : Type} (A : Answerer V σ) (inputs : Inputs V) (s : σ),
        runGraph A (functionAt oneArmScript) g inputs s =
          some (evalScript A inputs s oneArmScript) := by
  have hsome : (graphsOf oneArmScript).toOption.isSome = true := by decide +kernel
  cases hg : graphsOf oneArmScript with
  | error e => rw [hg] at hsome; cases hsome
  | ok graphs =>
    obtain ⟨hlen, hscript, -⟩ := graphsOf_preserves_meaning oneArmScript graphs hg
    exact ⟨graphs, rfl, hlen, hscript⟩

end ScriptEngine.Meaning
