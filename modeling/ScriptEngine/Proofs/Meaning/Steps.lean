import ScriptEngine.Proofs.Meaning.Simulation

/-!
The single steps of a walk: an instruction at the end of the current block, a variable that gets a
value, a call with its pushed arguments, a return.
-/

namespace ScriptEngine.Construction

open State Meaning

variable {c c' : Construction}

theorem build_emit_eq_ok {op : PrimOp} {ins : List Input} {id : InstrId}
    (h : build (Builder.emit op ins) c = .ok id c') :
    c.here.index < c.graph.blocks.size ∧ id = ⟨c.graph.instrs.size⟩ ∧
      c' = c.withGraph (appended c.graph c.here (.prim op) ins) := by
  obtain ⟨b, hb, rfl⟩ := build_eq_ok.mp h
  obtain ⟨_, t, hg, ha⟩ := bind_eq_ok.mp hb
  obtain ⟨rfl, rfl⟩ := get_eq_ok.mp hg
  exact build_appendTo_eq_ok (build_eq_ok.mpr ⟨b, ha, rfl⟩)

theorem emit_eq_ok {op : ScriptOp} {ins : List Input} {id : InstrId}
    (h : emit op ins c = .ok id c') :
    c.here.index < c.graph.blocks.size ∧ id = ⟨c.graph.instrs.size⟩ ∧
      c' = c.withGraph (appended c.graph c.here (.script op) ins) := by
  obtain ⟨b, hb, rfl⟩ := build_eq_ok.mp h
  obtain ⟨_, t, hg, ha⟩ := bind_eq_ok.mp hb
  obtain ⟨rfl, rfl⟩ := get_eq_ok.mp hg
  exact build_appendTo_eq_ok (build_eq_ok.mpr ⟨b, ha, rfl⟩)

theorem envInsert_eq_ok {x : Variable} {id : InstrId} {u : Unit} :
    envInsert x id c = .ok u c' ↔
      { c with frame := { c.frame with env := c.frame.env.insert x id } } = c' :=
  modifyFrame_eq_ok

end ScriptEngine.Construction

namespace ScriptEngine.Meaning

open State Construction Syntax

/-! ### Environments -/

theorem get?_erase (env : Env) (x y : Variable) :
    (env.erase x).get? y = if y = x then none else env.get? y := by
  unfold Env.erase
  induction env with
  | nil => simp [Env.get?]
  | cons p rest ih =>
    obtain ⟨z, id⟩ := p
    rw [List.filter_cons, get?_cons]
    by_cases hz : z = x
    · subst hz
      simp only [bne_self_eq_false, Bool.false_eq_true, if_false, ih]
      split <;> rfl
    · have hb : (z != x) = true := by simpa using hz
      rw [if_pos hb, get?_cons, ih]
      by_cases hy : y = z
      · simp [hy, hz]
      · simp [hy]

theorem get?_insert (env : Env) (x y : Variable) (id : InstrId) :
    (env.insert x id).get? y = if y = x then some id else env.get? y := by
  unfold Env.insert
  rw [get?_cons, get?_erase]
  split <;> rfl

/-! ### Appending to the current block -/

/-- Steps that only append to the current block. -/
structure Grows (c c' : Construction) : Prop where
  same : c' = c.withGraph c'.graph
  grown : Extends c.graph c'.graph (· = c.here.index)

namespace Grows

variable {c c₁ c₂ : Construction}

theorem refl (c : Construction) : Grows c c := ⟨rfl, Extends.refl _ _⟩

theorem here (h : Grows c c₁) : c₁.here = c.here := by rw [h.same]; rfl

theorem env (h : Grows c c₁) : c₁.frame.env = c.frame.env := by rw [h.same]; rfl

theorem trans (h₁ : Grows c c₁) (h₂ : Grows c₁ c₂) : Grows c c₂ := by
  refine ⟨?_, (h₁.grown.trans h₂.grown).mono ?_⟩
  · rw [h₂.same, h₁.same]
    simp
  · rintro i _ (h | h)
    · exact h
    · rwa [h₁.here] at h

theorem builds (h : Grows c c₁) (hv : c.here.index < c.graph.blocks.size) : Builds [] c c₁ := by
  refine builds_of_extends ?_ ?_ h.grown (.inl h.here) ?_
  · rw [h.same]; rfl
  · rw [h.same]; rfl
  · rw [h.here]
    exact hv.trans_le h.grown.blocks_le

theorem ready {top carry : Bool} {known : Names} (h : Grows c c₁)
    (hr : Ready top known carry c) : Ready top known carry c₁ where
  topLevel := by rw [h.same]; exact hr.topLevel
  running := by rw [h.same]; exact hr.running
  valid := (h.builds hr.valid).valid
  bound x id hx := (hr.bound x id (h.env ▸ hx)).trans_le h.grown.instrs_le
  scope := by rw [h.env]; exact hr.scope
  outside := hr.outside
  completion := by rw [h.env]; exact hr.completion
  result := by rw [h.env]; exact hr.result

end Grows

theorem grows_appended (c : Construction) (op : Op) (ins : List Input) :
    Grows c (c.withGraph (appended c.graph c.here op ins)) :=
  ⟨rfl, extends_appended ..⟩

section

variable {V σ : Type} {S : Site V σ} {known : Names} {Γ : List (InstrId × V)}
  {functions : Nat → Function} {G : Graph} {c c' : Construction}

/-- The finished block goes on from the end of the block under construction. -/
theorem block_of_appended {op : Op} {ins : List Input} {O : Nat → Prop}
    (hv : c.here.index < c.graph.blocks.size)
    (hG : Finished (appended c.graph c.here op ins) G O) :
    ∃ B old rest, G.blocks[c.here.index]? = some B ∧ lengthOf c.graph c.here = old.length ∧
      lengthOf (appended c.graph c.here op ins) c.here =
        (old ++ [InstrId.mk c.graph.instrs.size]).length ∧
      B.instrs = old ++ [⟨c.graph.instrs.size⟩] ++ rest := by
  obtain ⟨old, hold⟩ : ∃ B, c.graph.blocks[c.here.index]? = some B :=
    ⟨_, Array.getElem?_eq_getElem hv⟩
  have hnew := appended_block c.graph c.here op ins hold
  obtain ⟨B, hB, rest, hrest⟩ := hG.longer _ _ hnew
  exact ⟨B, old.instrs, rest, hB, by simp [lengthOf, hold], by simp [lengthOf, hnew], hrest.symm⟩

/-- An appended instruction is executed. -/
theorem reaches_appended {op : Op} {ins : List Input} {O : Nat → Prop} {s s' : Activity V σ}
    (hv : c.here.index < c.graph.blocks.size)
    (hG : Finished (appended c.graph c.here op ins) G O) (hret : op ≠ .prim .ret)
    (hs : perform S.answerer functions S.inputs s ⟨c.graph.instrs.size⟩ op ins = some s') :
    Reaches S functions G c s (c.withGraph (appended c.graph c.here op ins)) s' := by
  obtain ⟨B, old, rest, hB, h₁, h₂, hi⟩ := block_of_appended hv hG
  have hinstr := hG.instrs c.graph.instrs.size (by simp)
  rw [appended_instr] at hinstr
  have hrun : runBody S.answerer functions G S.inputs [⟨c.graph.instrs.size⟩] s =
      some (.fell, s') := by
    rw [runBody_cons _ _ _ _ ⟨c.graph.instrs.size⟩ _ _ hinstr hret, hs]
    rfl
  have hl := leads_of_runBody hB hi hrun
  rw [← h₁, ← h₂] at hl
  exact hl

/-- Registers still hold the values of the variables after new ones were written. -/
theorem Matches.kept {s s' : Activity V σ} {ℓ ℓ' : Locals V σ} {top carry : Bool}
    (h : Matches S c s ℓ) (hr : Ready top known carry c) (henv : c'.frame.env = c.frame.env)
    (hk : Kept c.graph.instrs.size s s') (hw : s'.world = ℓ'.world) (hv : ℓ'.vars = ℓ.vars)
    (hc : ℓ'.completion = ℓ.completion) : Matches S c' s' ℓ' := by
  have hval : ∀ x, valueIn S.answerer c'.frame.env s'.regs x =
      valueIn S.answerer c.frame.env s.regs x := by
    intro x
    rw [henv]
    unfold valueIn
    cases hx : c.frame.env.get? x with
    | none => rfl
    | some id => exact hk.regs id (hr.bound x id hx)
  refine ⟨fun name => ?_, fun ht => ?_, hw⟩
  · rw [hval, h.vars, hv]
  · rw [hval, h.completion ht, hc]

/-- An appended instruction gives a value and may change the world. -/
theorem reaches_value {op : Op} {ins : List Input} {O : Nat → Prop} {s : Activity V σ}
    {ℓ : Locals V σ} {v : V} {w : σ} (hr : Ready S.topLevel known false c)
    (hG : Finished (appended c.graph c.here op ins) G O) (hret : op ≠ .prim .ret)
    (hs : Matches S c s ℓ)
    (hp : perform S.answerer functions S.inputs s ⟨c.graph.instrs.size⟩ op ins =
      some { s.setReg ⟨c.graph.instrs.size⟩ v with world := w }) :
    ∃ s', Reaches S functions G c s (c.withGraph (appended c.graph c.here op ins)) s' ∧
      Matches S (c.withGraph (appended c.graph c.here op ins)) s' { ℓ with world := w } ∧
      Kept c.graph.instrs.size s s' ∧ s'.regs ⟨c.graph.instrs.size⟩ = v := by
  have hk : Kept c.graph.instrs.size s
      { s.setReg ⟨c.graph.instrs.size⟩ v with world := w } := by
    have hset : Kept c.graph.instrs.size s (s.setReg ⟨c.graph.instrs.size⟩ v) :=
      Kept.setReg v le_rfl
    exact ⟨hset.regs, hset.pushed⟩
  exact ⟨_, reaches_appended hr.valid hG hret hp, hs.kept hr rfl hk rfl rfl rfl, hk,
    by simp [Activity.setReg]⟩

theorem simulates_appended {m : ConstructM InstrId} {op : Op} {ins : List Input}
    {e : EvalM V σ V}
    (hm : ∀ c id c', m c = .ok id c' → c.here.index < c.graph.blocks.size ∧
      id = ⟨c.graph.instrs.size⟩ ∧ c' = c.withGraph (appended c.graph c.here op ins))
    (hret : op ≠ .prim .ret)
    (hrun : ∀ functions (s : Activity V σ) ℓ id, s.world = ℓ.world →
      (∀ p ∈ Γ, s.regs p.1 = p.2) → ∃ v w, e.run ℓ = (v, { ℓ with world := w }) ∧
      perform S.answerer functions S.inputs s id op ins =
        some { s.setReg id v with world := w }) :
    Simulates S known [] Γ m e Reading.value := by
  intro c id c' hr hb h
  obtain ⟨hv, rfl, rfl⟩ := hm c id c' h
  have hg := grows_appended c op ins
  refine ⟨hg.builds hv, hg.ready hr, ⟨⟨S.answerer.undefined, trivial⟩, ?_⟩, ?_⟩
  · intro b _ p hp
    obtain rfl := List.mem_singleton.mp hp
    simp
  · intro functions G O hw s ℓ hs hΓ
    obtain ⟨v, w, he, hp⟩ := hrun functions s ℓ ⟨c.graph.instrs.size⟩ hs.world hΓ
    rw [he]
    obtain ⟨s', hl, hs', hk, hval⟩ := reaches_value hr hw.finished hret hs hp
    refine ⟨s', hl, hs', hk, trivial, fun p hp => ?_⟩
    obtain rfl := List.mem_singleton.mp hp
    exact hval

/-- One instruction that asks the world. -/
theorem simulates_ask {m : ConstructM InstrId} {op : Op} {ins : List Input} {r : Request V}
    (hm : ∀ c id c', m c = .ok id c' → c.here.index < c.graph.blocks.size ∧
      id = ⟨c.graph.instrs.size⟩ ∧ c' = c.withGraph (appended c.graph c.here op ins))
    (hret : op ≠ .prim .ret)
    (hrun : ∀ functions (s : Activity V σ) id, (∀ p ∈ Γ, s.regs p.1 = p.2) →
      perform S.answerer functions S.inputs s id op ins = some (ask S.answerer s id r 0)) :
    Simulates S known [] Γ m (S.ask r) Reading.value := by
  apply simulates_appended hm hret
  intro functions s ℓ id hw hΓ
  refine ⟨_, _, rfl, ?_⟩
  rw [hrun functions s id hΓ, ask, hw]
  rfl

theorem simulates_literal (k : Const) :
    Simulates S known [] Γ (literal k) (S.constant k) Reading.value :=
  simulates_appended (fun _ _ _ h => build_emit_eq_ok h) (by simp)
    fun _ s ℓ id hw _ => ⟨S.answerer.constant k, ℓ.world, rfl, by rw [← hw]; rfl⟩

theorem simulates_receiver :
    Simulates S known [] Γ (build (Builder.emit .receiver)) (pure S.inputs.receiver)
      Reading.value :=
  simulates_appended (fun _ _ _ h => build_emit_eq_ok h) (by simp)
    fun _ s ℓ id hw _ => ⟨S.inputs.receiver, ℓ.world, rfl, by rw [← hw]; rfl⟩

theorem simulates_emit {op : ScriptOp} {ins : List Input} {r : Request V}
    (hrun : ∀ functions (s : Activity V σ) id, (∀ p ∈ Γ, s.regs p.1 = p.2) →
      perform S.answerer functions S.inputs s id (.script op) ins =
        some (ask S.answerer s id r 0)) :
    Simulates S known [] Γ (emit op ins) (S.ask r) Reading.value :=
  simulates_ask (fun _ _ _ h => emit_eq_ok h) (by simp) hrun

section

attribute [local simp] perform request? operand

variable {object key value left right : InstrId} {o k v x y : V}

theorem simulates_storeGlobal {name : String} (hv : (value, v) ∈ Γ) :
    Simulates S known [] Γ (emit .storeGlobal [textInput name, value])
      (S.ask (.storeGlobal name v)) Reading.value :=
  simulates_emit fun _ s _ h => by simp [perform, request?, textInput, operand, h _ hv]

theorem simulates_loadProperty (ho : (object, o) ∈ Γ) (hk : (key, k) ∈ Γ) :
    Simulates S known [] Γ (loadProperty object key) (S.ask (.loadProperty o k))
      Reading.value :=
  simulates_emit fun _ s _ h => by simp [perform, request?, operand, h _ ho, h _ hk]

theorem simulates_storeProperty (ho : (object, o) ∈ Γ) (hk : (key, k) ∈ Γ)
    (hv : (value, v) ∈ Γ) :
    Simulates S known [] Γ (storeProperty object key value) (S.ask (.storeProperty o k v))
      Reading.value :=
  simulates_emit fun _ s _ h => by simp [perform, request?, operand, h _ ho, h _ hk, h _ hv]

theorem simulates_deleteProperty (ho : (object, o) ∈ Γ) (hk : (key, k) ∈ Γ) :
    Simulates S known [] Γ (emit .deleteProperty [object, key]) (S.ask (.deleteProperty o k))
      Reading.value :=
  simulates_emit fun _ s _ h => by simp [perform, request?, operand, h _ ho, h _ hk]

theorem simulates_applyUnary {op : UnaryOp} (hv : (value, v) ∈ Γ) :
    Simulates S known [] Γ (applyUnary op value) (S.ask (.unary op v)) Reading.value :=
  simulates_emit fun _ s _ h => by simp [perform, request?, operand, h _ hv]

theorem simulates_applyBinary {op : BinaryOp} (hx : (left, x) ∈ Γ) (hy : (right, y) ∈ Γ) :
    Simulates S known [] Γ (applyBinary op left right) (S.ask (.binary op x y)) Reading.value :=
  simulates_emit fun _ s _ h => by simp [perform, request?, operand, h _ hx, h _ hy]

theorem simulates_throw {α β : Type} {error : SourceError} {e : EvalM V σ β}
    {fs : List Function} {R : Reading α β V} :
    Simulates S known fs Γ (throw error : ConstructM α) e R := by
  intro c a c' _ _ h
  exact (throw_eq_ok.mp h).elim

theorem simulates_applySign (sign : BinarySign) (hx : (left, x) ∈ Γ) (hy : (right, y) ∈ Γ) :
    Simulates S known [] Γ (applySign sign left right) (S.applySign sign x y)
      Reading.value := by
  cases sign with
  | other spelling => exact simulates_throw
  | gt => exact simulates_applyBinary hy hx
  | ge => exact simulates_applyBinary hy hx
  | _ => exact simulates_applyBinary hx hy

end

/-! ### Calls -/

theorem map_eq_of_zip {regs : InstrId → V} : ∀ {ids : List InstrId} {vs : List V},
    ids.length = vs.length → (∀ p ∈ ids.zip vs, regs p.1 = p.2) → ids.map regs = vs
  | [], [], _, _ => rfl
  | id :: ids, v :: vs, hlen, h => by
    rw [List.map_cons, h (id, v) (by simp),
      map_eq_of_zip (by simpa using hlen) fun p hp => h p (by simp [hp])]

/-- Pushed values lie on each other in the order of the pushes. -/
theorem reaches_pushes : ∀ {l : List Input} {c c' : Construction} {u : Unit},
    build (l.forM fun arg => discard (Builder.emit .push [arg])) c = .ok u c' →
    Grows c c' ∧ ∀ (S : Site V σ) (functions : Nat → Function) (G : Graph) (O : Nat → Prop)
      (s : Activity V σ), Finished c'.graph G O → Reaches S functions G c s c'
        { s with pushed := (l.map (operand S.answerer s)).reverse ++ s.pushed }
  | [], c, c', u, h => by
    obtain ⟨b, hb, rfl⟩ := build_eq_ok.mp h
    obtain ⟨-, rfl⟩ := pure_eq_ok.mp hb
    exact ⟨Grows.refl c, fun S functions G O s _ => Leads.refl⟩
  | arg :: rest, c, c', u, h => by
    obtain ⟨b, hb, rfl⟩ := build_eq_ok.mp h
    obtain ⟨b₁, hpush, hrest⟩ := forM_cons_eq_ok.mp hb
    obtain ⟨id, hemit⟩ := discard_eq_ok.mp hpush
    obtain ⟨hv, rfl, hc₁⟩ := build_emit_eq_ok (build_eq_ok.mpr ⟨b₁, hemit, rfl⟩)
    obtain ⟨hg, hl⟩ := reaches_pushes
      (c := { c with frame.builder := b₁ }) (build_eq_ok.mpr ⟨b, hrest, rfl⟩)
    rw [hc₁] at hg hl
    refine ⟨(grows_appended c _ _).trans hg, fun S functions G O s hG => ?_⟩
    have hG₁ : Finished (appended c.graph c.here (.prim .push) [arg]) G fun _ => True :=
      hG.earlier hg.grown fun _ _ _ => trivial
    have h₁ : Reaches S functions G c s (c.withGraph (appended c.graph c.here _ [arg]))
        { s with pushed := operand S.answerer s arg :: s.pushed } :=
      reaches_appended hv hG₁ (by simp) rfl
    have h₂ := hl S functions G O { s with pushed := operand S.answerer s arg :: s.pushed } hG
    rw [List.map_cons, List.reverse_cons, List.append_assoc]
    exact Leads.trans h₁ h₂

/-- Arguments are pushed, and one instruction takes them all. -/
theorem simulates_pushed {m : ConstructM InstrId} {op : Op} {ins : List Input} {r : Request V}
    {args : List InstrId} {vs : List V}
    (hm : ∀ c id c', m c = .ok id c' → c.here.index < c.graph.blocks.size ∧
      id = ⟨c.graph.instrs.size⟩ ∧ c' = c.withGraph (appended c.graph c.here op ins))
    (hret : op ≠ .prim .ret) (hlen : args.length = vs.length) (hargs : args.zip vs ⊆ Γ)
    (hrun : ∀ functions (s : Activity V σ) id rest, (∀ p ∈ Γ, s.regs p.1 = p.2) →
      s.pushed = vs ++ rest → perform S.answerer functions S.inputs s id op ins =
        some (ask S.answerer s id r vs.length)) :
    Simulates S known [] Γ (pushArgs args >>= fun _ => m) (S.ask r) Reading.value := by
  intro c id c₂ hr hb h
  obtain ⟨_, c₁, hpush, hcall⟩ := bind_eq_ok.mp h
  obtain ⟨hg₁, hl₁⟩ := reaches_pushes (V := V) (σ := σ) hpush
  obtain ⟨hv, rfl, rfl⟩ := hm _ _ _ hcall
  have hg₂ := grows_appended c₁ op ins
  have hg := hg₁.trans hg₂
  refine ⟨hg.builds hr.valid, hg.ready hr, ⟨⟨S.answerer.undefined, trivial⟩, ?_⟩, ?_⟩
  · intro b _ p hp
    obtain rfl := List.mem_singleton.mp hp
    simp
  · intro functions G O hw s ℓ hs hΓ
    have hG₁ : Finished c₁.graph G fun _ => True :=
      hw.finished.earlier hg₂.grown fun _ _ _ => trivial
    have h₁ := hl₁ S functions G _ s hG₁
    have hpushed : ((args.map Input.value).reverse.map (operand S.answerer s)).reverse = vs := by
      rw [List.map_reverse, List.reverse_reverse, List.map_map]
      exact map_eq_of_zip hlen fun p hp => hΓ p (hargs hp)
    rw [hpushed] at h₁
    have hp := hrun functions { s with pushed := vs ++ s.pushed } ⟨c₁.graph.instrs.size⟩
      s.pushed hΓ rfl
    have h₂ := reaches_appended (S := S) hv hw.finished hret hp
    have hdrop : (vs ++ s.pushed).drop vs.length = s.pushed := List.drop_left
    have hk : Kept c.graph.instrs.size s
        (ask S.answerer { s with pushed := vs ++ s.pushed } ⟨c₁.graph.instrs.size⟩ r
          vs.length) := by
      refine ⟨fun i hi => ?_, hdrop⟩
      have hne : i ≠ ⟨c₁.graph.instrs.size⟩ := by
        rintro rfl
        have := hg₁.grown.instrs_le
        simp only at hi
        omega
      exact if_neg hne
    refine ⟨_, Leads.trans h₁ h₂, hs.kept hr hg.env hk ?_ rfl rfl, hk, trivial, ?_⟩
    · simp [ask, Site.ask, StateT.run, hs.world]
    · intro p hp'
      obtain rfl := List.mem_singleton.mp hp'
      simp [ask, Activity.setReg, Site.ask, StateT.run, hs.world]

theorem simulates_callWith {callee receiver : InstrId} {f o : V} {args : List InstrId}
    {vs : List V} (hf : (callee, f) ∈ Γ) (ho : (receiver, o) ∈ Γ)
    (hlen : args.length = vs.length) (hargs : args.zip vs ⊆ Γ) :
    Simulates S known [] Γ (callWith callee receiver args) (S.ask (.call f o vs))
      Reading.value := by
  refine simulates_pushed (fun _ _ _ h => build_emit_eq_ok h) (by simp) hlen hargs ?_
  intro functions s id rest h hp
  simp [perform, request?, operand, countInput, Builder.raw, hlen, hp, h _ hf, h _ ho]

theorem simulates_construct {callee : InstrId} {f : V} {args : List InstrId} {vs : List V}
    (hf : (callee, f) ∈ Γ) (hlen : args.length = vs.length) (hargs : args.zip vs ⊆ Γ) :
    Simulates S known [] Γ (pushArgs args >>= fun _ => emit .construct [callee, countInput args])
      (S.ask (.construct f vs)) Reading.value := by
  refine simulates_pushed (fun _ _ _ h => emit_eq_ok h) (by simp) hlen hargs ?_
  intro functions s id rest h hp
  simp [perform, request?, operand, countInput, Builder.raw, hlen, hp, h _ hf]

/-! ### Variables -/

theorem Simulates.of_eq {α β : Type} {m m' : ConstructM α} {e : EvalM V σ β}
    {R : Reading α β V} {fs : List Function} (h : Simulates S known fs Γ m' e R)
    (hm : ∀ c, Ready S.topLevel known false c → m c = m' c) : Simulates S known fs Γ m e R :=
  fun c a c' hr hb hok => h c a c' hr hb ((hm c hr).symm.trans hok)

/-- The same construction with another environment. -/
def withEnv (c : Construction) (env : Env) : Construction :=
  { c with frame := { c.frame with env } }

theorem builds_withEnv (env : Env) (hv : c.here.index < c.graph.blocks.size) :
    Builds [] c (withEnv c env) :=
  builds_of_extends rfl rfl (Extends.refl _ _) (.inl rfl) hv

section

variable {top carry : Bool} {id : InstrId}

theorem Ready.get?_name (hr : Ready top known carry c) {name : String} (h : name ∈ known) :
    ∃ id, c.frame.env.get? (.name name) = some id :=
  Option.isSome_iff_exists.mp ((hr.scope name).mpr h)

theorem Ready.get?_other (hr : Ready top known carry c) {name : String} (h : name ∉ known) :
    c.frame.env.get? (.name name) = none := by
  rw [← Option.not_isSome_iff_eq_none, hr.scope name]
  exact h

/-- A variable gets a value; only its own entry of the environment changes. -/
theorem Ready.insert {x : Variable} {known' : Names} {carry' : Bool}
    (hr : Ready top known carry c) (hid : id.index < c.graph.instrs.size)
    (hscope : ∀ name, name ∈ known' ↔ Variable.name name = x ∨ name ∈ known)
    (htop : top = true → known' = known)
    (hcarry : carry' = true ↔ Variable.result = x ∨ carry = true) :
    Ready top known' carry' (withEnv c (c.frame.env.insert x id)) where
  topLevel := hr.topLevel
  running := hr.running
  valid := hr.valid
  bound y i h := by
    simp only [withEnv] at h
    rw [get?_insert] at h
    split at h
    · cases h
      exact hid
    · exact hr.bound y i h
  scope name := by
    simp only [withEnv]
    rw [get?_insert, hscope, ← hr.scope name]
    split <;> simp_all
  outside ht := (htop ht).trans (hr.outside ht)
  completion ht := by
    simp only [withEnv]
    rw [get?_insert]
    split
    · rfl
    · exact hr.completion ht
  result := by
    simp only [withEnv]
    rw [get?_insert, Bool.eq_iff_iff, hcarry, ← hr.result]
    split <;> simp_all

theorem valueIn_insert (A : Answerer V σ) (env : Env) (regs : InstrId → V) (x y : Variable) :
    valueIn A (env.insert x id) regs y = if y = x then regs id else valueIn A env regs y := by
  unfold valueIn
  rw [get?_insert]
  by_cases h : y = x
  · simp [h]
  · simp [h]

/-- A local variable gets a value. -/
theorem Matches.setVar {s : Activity V σ} {ℓ : Locals V σ} {name : String} {v : V}
    (h : Matches S c s ℓ) (hv : s.regs id = v) :
    Matches S (withEnv c (c.frame.env.insert (.name name) id)) s
      ((Site.setVar name v).run ℓ).2 where
  vars n := by
    change valueIn _ (c.frame.env.insert _ id) _ _ = if n = name then v else ℓ.vars n
    rw [valueIn_insert, h.vars, hv]
    simp
  completion ht := by
    change valueIn _ (c.frame.env.insert _ id) _ _ = ℓ.completion
    rw [valueIn_insert, h.completion ht]
    simp
  world := h.world

end

theorem envGet?_bind {α : Type} (x : Variable) (f : Option InstrId → ConstructM α)
    (c : Construction) : (envGet? x >>= f) c = f (c.frame.env.get? x) c := rfl

theorem simulates_loadName (name : String) :
    Simulates S known [] Γ (loadName name) (S.loadName known name) Reading.value := by
  by_cases hk : name ∈ known
  · intro c a c' hr hb h
    obtain ⟨id, hid⟩ := hr.get?_name hk
    rw [loadName, envGet?_bind, hid] at h
    obtain ⟨rfl, rfl⟩ := pure_eq_ok.mp h
    refine ⟨(Grows.refl c).builds hr.valid, hr, ⟨⟨S.answerer.undefined, trivial⟩, ?_⟩, ?_⟩
    · intro b _ p hp
      obtain rfl := List.mem_singleton.mp hp
      exact hr.bound _ _ hid
    · intro functions G O _ s ℓ hs _
      have he : (S.loadName known name).run ℓ = (ℓ.vars name, ℓ) := by
        simp only [Site.loadName, if_pos hk]
        rfl
      rw [he]
      refine ⟨s, Leads.refl, hs, Kept.refl _ _, trivial, fun p hp => ?_⟩
      obtain rfl := List.mem_singleton.mp hp
      rw [← hs.vars, valueIn, hid]
  · have hload : Simulates S known [] Γ
        (if name = "undefined" then literal .undefined else emit .loadGlobal [textInput name])
        (S.loadName known name) Reading.value := by
      unfold Site.loadName
      rw [if_neg hk]
      split
      · exact simulates_literal _
      · exact simulates_emit fun _ s _ _ => by simp [perform, request?, textInput]
    refine hload.of_eq fun c hr => ?_
    rw [loadName, envGet?_bind, hr.get?_other hk]

theorem simulates_deleteName (name : String) :
    Simulates S known [] Γ (expression (.unary .delete (.name name)))
      (S.expression known (.unary .delete (.name name))) Reading.value := by
  unfold expression Site.expression
  by_cases hk : name ∈ known
  · rw [if_pos hk]
    refine (simulates_literal _).of_eq fun c hr => ?_
    obtain ⟨id, hid⟩ := hr.get?_name hk
    rw [envGet?_bind, hid]
  · rw [if_neg hk]
    have hdelete : Simulates S known [] Γ (emit .deleteGlobal [textInput name])
        (S.ask (.deleteGlobal name)) Reading.value :=
      simulates_emit fun _ s _ _ => by simp [perform, request?, textInput]
    refine hdelete.of_eq fun c hr => ?_
    rw [envGet?_bind, hr.get?_other hk]

/-! ### Places -/

/-- Places stand for each other if their parts do; a local name is one that is known. -/
def Reading.place (known : Names) : Reading Construction.Place (Place V) V where
  agree
    | .local name, .local name' => name = name' ∧ name ∈ known
    | .global name, .global name' => name = name'
    | .property _ _, .property _ _ => True
    | _, _ => False
  pairs
    | .property object key, .property o k => [(object, o), (key, k)]
    | _, _ => []

theorem simulates_placeOf (name : String) :
    Simulates S known [] Γ (placeOf name) (pure (Site.placeOf known name))
      (Reading.place known) := by
  unfold Site.placeOf
  by_cases hk : name ∈ known
  · rw [if_pos hk]
    have hagree : (Reading.place (V := V) known).agree (.local name) (.local name) := ⟨rfl, hk⟩
    refine Simulates.of_eq (Simulates.pure hagree ?_ ?_) fun c hr => ?_
    · rintro (_ | _ | _) _ p hp <;> simp [Reading.place] at hp
    · simp [Reading.place]
    · obtain ⟨id, hid⟩ := hr.get?_name hk
      have htop : c.frame.topLevel = false := by
        rw [hr.topLevel]
        by_contra ht
        rw [hr.outside (by simpa using ht)] at hk
        simp at hk
      change (if (c.frame.topLevel || !c.frame.env.contains (.name name)) = true then
        pure (Construction.Place.global name) else pure (.local name) : ConstructM _) c = _
      simp [htop, Env.contains, hid]
  · rw [if_neg hk]
    have hagree : (Reading.place (V := V) known).agree (.global name) (.global name) := rfl
    refine Simulates.of_eq (Simulates.pure hagree ?_ ?_) fun c hr => ?_
    · rintro (_ | _ | _) _ p hp <;> simp [Reading.place] at hp
    · simp [Reading.place]
    · change (if (c.frame.topLevel || !c.frame.env.contains (.name name)) = true then
        pure (Construction.Place.global name) else pure (.local name) : ConstructM _) c = _
      simp [Env.contains, hr.get?_other hk]

theorem simulates_read {place : Construction.Place} {place' : Place V}
    (h : (Reading.place known).agree place place')
    (hΓ : (Reading.place known).pairs place place' ⊆ Γ) :
    Simulates S known [] Γ place.read (S.readPlace known place') Reading.value := by
  cases place with
  | «local» name =>
    cases place' with
    | «local» name' =>
      obtain ⟨rfl, -⟩ := h
      exact simulates_loadName name
    | _ => cases h
  | global name =>
    cases place' with
    | global name' =>
      cases h
      exact simulates_loadName name
    | _ => cases h
  | property object key =>
    cases place' with
    | property o k =>
      exact simulates_loadProperty (hΓ (by simp [Reading.place])) (hΓ (by simp [Reading.place]))
    | _ => cases h

theorem simulates_writeLocal {name : String} {id : InstrId} {v : V} (hk : name ∈ known)
    (hv : (id, v) ∈ Γ) :
    Simulates S known [] Γ (Construction.Place.write id (.local name))
      (S.writePlace v (.local name)) Reading.value := by
  intro c a c' hr hb h
  obtain ⟨_, c₁, hins, hpure⟩ := bind_eq_ok.mp h
  obtain rfl := envInsert_eq_ok.mp hins
  obtain ⟨rfl, rfl⟩ := pure_eq_ok.mp hpure
  have hid := hb _ hv
  refine ⟨builds_withEnv _ hr.valid, hr.insert hid ?_ (fun _ => rfl) (by simp), ?_, ?_⟩
  · intro n
    constructor
    · exact .inr
    · rintro (h | h)
      · cases h
        exact hk
      · exact h
  · refine ⟨⟨v, trivial⟩, fun b _ p hp => ?_⟩
    obtain rfl := List.mem_singleton.mp hp
    exact hid
  · intro functions G O _ s ℓ hs hΓ
    refine ⟨s, Leads.refl, hs.setVar (hΓ _ hv), Kept.refl _ _, trivial, fun p hp => ?_⟩
    obtain rfl := List.mem_singleton.mp hp
    exact hΓ _ hv

theorem simulates_write {place : Construction.Place} {place' : Place V} {id : InstrId} {v : V}
    (h : (Reading.place known).agree place place')
    (hΓ : (Reading.place known).pairs place place' ⊆ Γ) (hv : (id, v) ∈ Γ) :
    Simulates S known [] Γ (place.write id) (S.writePlace v place') Reading.value := by
  cases place with
  | «local» name =>
    cases place' with
    | «local» name' =>
      obtain ⟨rfl, hk⟩ := h
      exact simulates_writeLocal hk hv
    | _ => cases h
  | global name =>
    cases place' with
    | global name' =>
      cases h
      exact simulates_storeGlobal hv
    | _ => cases h
  | property object key =>
    cases place' with
    | property o k =>
      exact simulates_storeProperty (hΓ (by simp [Reading.place]))
        (hΓ (by simp [Reading.place])) hv
    | _ => cases h

theorem simulates_return : Simulates S known [] Γ (pure () : ConstructM Unit) (pure ())
    Reading.nothing :=
  Simulates.pure trivial (by simp [Reading.nothing]) (by simp [Reading.nothing])

theorem Simulates.discard {α β : Type} {m : ConstructM α} {e : EvalM V σ β} {R : Reading α β V}
    {fs : List Function} (h : Simulates S known fs Γ m e R) :
    Simulates S known fs Γ (discard m) (discard e) Reading.nothing := by
  intro c u c' hr hb hm
  obtain ⟨a, hm⟩ := discard_eq_ok.mp hm
  obtain ⟨h₁, h₂, -, h₄⟩ := h c a c' hr hb hm
  refine ⟨h₁, h₂, ⟨⟨⟨⟩, trivial⟩, by simp [Reading.nothing]⟩, ?_⟩
  intro functions G O hw s ℓ hs hΓ
  obtain ⟨s', hl, hs', hk, -⟩ := h₄ functions G O hw s ℓ hs hΓ
  exact ⟨s', hl, hs', hk, trivial, by simp [Reading.nothing]⟩

/-! ### Statements -/

/-- An evaluation after which execution goes on. -/
abbrev goOn (e : EvalM V σ Unit) : EvalM V σ (Exit V) := e >>= fun _ => pure (.next none)

theorem Simulates.goOn {m : ConstructM Unit} {e : EvalM V σ Unit} {fs : List Function}
    (h : Simulates S known fs Γ m e Reading.nothing) :
    Executes S known fs Γ (some known) false m (goOn e) := by
  intro c u c' hr hb hm
  obtain ⟨h₁, h₂, -, h₄⟩ := h c u c' hr hb hm
  refine ⟨h₁, h₂.running, fun k hk => by cases hk; exact h₂, ?_⟩
  intro functions G O hw s ℓ hs hΓ
  obtain ⟨s', hl, hs', hk, -⟩ := h₄ functions G O hw s ℓ hs hΓ
  exact ⟨rfl, s', hl, hs', hk, by simp⟩

theorem Executes.of_eq {m m' : ConstructM Unit} {e : EvalM V σ (Exit V)} {fs : List Function}
    {after : Option Names} {carry : Bool} (h : Executes S known fs Γ after carry m' e)
    (hm : ∀ c, Ready S.topLevel known false c → m c = m' c) :
    Executes S known fs Γ after carry m e :=
  fun c a c' hr hb hok => h c a c' hr hb ((hm c hr).symm.trans hok)

/-- Only the members of a list of names count. -/
theorem Ready.congr {top carry : Bool} {known' : Names} (hr : Ready top known carry c)
    (h : ∀ name, name ∈ known' ↔ name ∈ known) : Ready top known' carry c :=
  { hr with
    scope := fun name => by rw [h, hr.scope]
    outside := fun ht => by
      rw [hr.outside ht] at h
      exact List.eq_nil_iff_forall_not_mem.mpr fun n hn => by simpa using (h n).mp hn }

theorem Executes.congr {m : ConstructM Unit} {e : EvalM V σ (Exit V)} {fs : List Function}
    {k k' : Names} {carry : Bool} (h : Executes S known fs Γ (some k) carry m e)
    (hk : ∀ name, name ∈ k' ↔ name ∈ k) : Executes S known fs Γ (some k') carry m e := by
  intro c u c' hr hb hm
  obtain ⟨h₁, h₂, h₃, h₄⟩ := h c u c' hr hb hm
  refine ⟨h₁, h₂, fun _ hs => ?_, fun functions G O hw s ℓ hs hΓ => ?_⟩
  · cases hs
    exact (h₃ k rfl).congr hk
  · have hf := h₄ functions G O hw s ℓ hs hΓ
    cases hout : e.run ℓ with
    | mk exit ℓ' =>
      rw [hout] at hf
      cases exit with
      | returned v => exact hf
      | next carried => exact ⟨rfl, hf.2⟩

/-- A local variable is declared. -/
theorem executes_insertName {name : String} {id : InstrId} {v : V} (ht : S.topLevel = false)
    (hv : (id, v) ∈ Γ) :
    Executes S known [] Γ (some (name :: known)) false (envInsert (.name name) id)
      (goOn (Site.setVar name v)) := by
  intro c u c' hr hb h
  obtain rfl := envInsert_eq_ok.mp h
  have hready : Ready S.topLevel (name :: known) false
      (withEnv c (c.frame.env.insert (.name name) id)) := by
    apply hr.insert (hb _ hv)
    · intro n
      simp
    · simp [ht]
    · simp
  refine ⟨builds_withEnv _ hr.valid, hr.running, fun k hk => ?_, ?_⟩
  · cases hk
    exact hready
  · intro functions G O _ s ℓ hs hΓ
    exact ⟨rfl, s, Leads.refl, hs.setVar (hΓ _ hv), Kept.refl _ _, by simp⟩

/-- A name is declared. -/
theorem executes_bind {name : String} {id : InstrId} {v : V} (hv : (id, v) ∈ Γ) :
    Executes S known [] Γ (some (declare S.topLevel [name] known)) false (Construction.bind name id)
      (goOn (S.bind name v)) := by
  cases ht : S.topLevel with
  | true =>
    have hstore : Simulates S known [] Γ (discard (emit .storeGlobal [textInput name, id]))
        (discard (S.ask (.storeGlobal name v))) Reading.nothing := (simulates_storeGlobal hv).discard
    have he : S.bind name v = discard (S.ask (.storeGlobal name v)) := by simp [Site.bind, ht]
    rw [he]
    refine hstore.goOn.of_eq fun c hr => ?_
    change (if c.frame.topLevel = true then discard (emit .storeGlobal [textInput name, id])
      else envInsert (.name name) id) c = _
    rw [hr.topLevel, ht, if_pos rfl]
  | false =>
    have he : S.bind name v = Site.setVar name v := by simp [Site.bind, ht]
    rw [he]
    refine Executes.of_eq (executes_insertName ht hv) fun c hr => ?_
    change (if c.frame.topLevel = true then discard (emit .storeGlobal [textInput name, id])
      else envInsert (.name name) id) c = _
    rw [hr.topLevel, ht, if_neg (by simp)]

/-- A function returns. -/
theorem executes_ret {id : InstrId} {v : V} (hv : (id, v) ∈ Γ) :
    Executes S known [] Γ none false (ret id) (pure (.returned v)) := by
  intro c u c' hr hb h
  obtain ⟨_, c₁, hret, hdone⟩ := bind_eq_ok.mp h
  obtain ⟨_, hret⟩ := discard_eq_ok.mp hret
  obtain ⟨hlt, -, rfl⟩ := build_emit_eq_ok hret
  obtain rfl := modifyFrame_eq_ok.mp hdone
  have hg := (grows_appended c (.prim .ret) [.value id]).builds hlt
  refine ⟨⟨hg.toAdds, hg.grown, hg.moved, hg.valid, hg.topLevel⟩, rfl, by simp, ?_⟩
  intro functions G O hw s ℓ hs hΓ
  have hfin : Finished (appended c.graph c.here (.prim .ret) [.value id]) G _ := hw.finished
  obtain ⟨B, old, rest, hB, h₁, -, hi⟩ := block_of_appended hlt hfin
  have hinstr := hfin.instrs c.graph.instrs.size (by simp)
  have hrun : runBody S.answerer functions G S.inputs [⟨c.graph.instrs.size⟩] s =
      some (.returned v, s) := by
    have hi' : G.instrs[c.graph.instrs.size]? = _ := hinstr.trans (appended_instr ..)
    simp [runBody, hi', operand, hΓ _ hv]
  have hret := returns_of_runBody hB hi hrun
  rw [← h₁, hs.world] at hret
  exact hret

end

end ScriptEngine.Meaning
