import ScriptEngine.Proofs.Meaning.Joins

/-!
What it means that building steps simulate an evaluation: when the finished graph runs from where
the steps began, it comes to where they ended, asks the world the same questions, and has the
values that evaluation gives in the registers that the steps named.
-/

namespace ScriptEngine.Meaning

open State Construction Syntax

/-! ### Positions in a walk -/

/-- Functions have the numbers in which a walk meets them. -/
def Numbered (functions : Nat → Function) (start : Nat) (fs : List Function) : Prop :=
  ∀ i f, fs[i]? = some f → functions (start + i) = f

theorem Numbered.left {functions : Nat → Function} {start : Nat} {fs fs' : List Function}
    (h : Numbered functions start (fs ++ fs')) : Numbered functions start fs := by
  intro i f hi
  apply h i f
  rw [List.getElem?_append_left (List.getElem?_eq_some_iff.mp hi).1, hi]

theorem Numbered.right {functions : Nat → Function} {start : Nat} {fs fs' : List Function}
    (h : Numbered functions start (fs ++ fs')) : Numbered functions (start + fs.length) fs' := by
  intro i f hi
  rw [Nat.add_assoc]
  apply h (fs.length + i) f
  rw [List.getElem?_append_right (Nat.le_add_right _ _), Nat.add_sub_cancel_left, hi]

/-- A graph computes a function, whatever the world answers. -/
def Means (functions : Nat → Function) (g : Graph) (f : Function) : Prop :=
  ∀ {V σ : Type} (A : Answerer V σ) (inputs : Inputs V) (s : σ),
    runGraph A functions g inputs s = some (evalFunction A inputs s f)

/-- Steps build the graphs of the functions that they meet. -/
structure Adds (fs : List Function) (gs gs' : Array (Option Graph)) : Prop where
  size : gs'.size = gs.size + fs.length
  old : ∀ i < gs.size, gs'[i]? = gs[i]?
  new : ∀ functions, Numbered functions gs.size fs → ∀ i f, fs[i]? = some f →
    ∃ g, gs'[gs.size + i]? = some (some g) ∧ Means functions g f

theorem Adds.refl (gs : Array (Option Graph)) : Adds [] gs gs where
  size := rfl
  old _ _ := rfl
  new functions hn i f hf := by simp at hf

theorem Adds.trans {fs fs' : List Function} {gs gs₁ gs₂ : Array (Option Graph)}
    (h₁ : Adds fs gs gs₁) (h₂ : Adds fs' gs₁ gs₂) : Adds (fs ++ fs') gs gs₂ where
  size := by rw [h₂.size, h₁.size, List.length_append, Nat.add_assoc]
  old i hi := (h₂.old i (by rw [h₁.size]; omega)).trans (h₁.old i hi)
  new functions hn i f hf := by
    by_cases hi : i < fs.length
    · rw [List.getElem?_append_left hi] at hf
      obtain ⟨g, hg, hm⟩ := h₁.new functions hn.left i f hf
      exact ⟨g, (h₂.old _ (by rw [h₁.size]; omega)).trans hg, hm⟩
    · rw [List.getElem?_append_right (by omega)] at hf
      have hn' := hn.right
      rw [← h₁.size] at hn'
      obtain ⟨g, hg, hm⟩ := h₂.new functions hn' _ f hf
      refine ⟨g, ?_, hm⟩
      rw [h₁.size] at hg
      rwa [show gs.size + i = gs.size + fs.length + (i - fs.length) by omega]

/-- What steps do to a construction: the current block grows, or execution goes on in a later one,
and functions are built. -/
structure Builds (fs : List Function) (c c' : Construction) : Prop
    extends Adds fs c.graphs c'.graphs where
  grown : Extends c.graph c'.graph (· = c.here.index)
  moved : c'.here = c.here ∨ c.graph.blocks.size ≤ c'.here.index
  valid : c'.here.index < c'.graph.blocks.size
  topLevel : c'.frame.topLevel = c.frame.topLevel

theorem Builds.trans {fs fs' : List Function} {c c₁ c₂ : Construction} (h₁ : Builds fs c c₁)
    (h₂ : Builds fs' c₁ c₂) : Builds (fs ++ fs') c c₂ where
  toAdds := h₁.toAdds.trans h₂.toAdds
  grown := by
    refine (h₁.grown.trans h₂.grown).mono ?_
    rintro i hi (h | h)
    · exact h
    · rcases h₁.moved with hm | hm
      · rwa [hm] at h
      · omega
  moved := by
    rcases h₂.moved with h | h
    · rw [h]
      exact h₁.moved
    · exact .inr (h₁.grown.blocks_le.trans h)
  valid := h₂.valid
  topLevel := h₂.topLevel.trans h₁.topLevel

/-- Steps that meet no function and stay in their frame. -/
theorem builds_of_extends {c c' : Construction} (hg : c'.graphs = c.graphs)
    (ht : c'.frame.topLevel = c.frame.topLevel)
    (he : Extends c.graph c'.graph (· = c.here.index))
    (hm : c'.here = c.here ∨ c.graph.blocks.size ≤ c'.here.index)
    (hv : c'.here.index < c'.graph.blocks.size) : Builds [] c c' where
  toAdds := by rw [hg]; exact Adds.refl _
  grown := he
  moved := hm
  valid := hv
  topLevel := ht

/-- A finished graph around the steps from `c` to `c'`; the blocks in `O` belong to other arms. -/
structure Within (functions : Nat → Function) (fs : List Function) (c c' : Construction)
    (G : Graph) (O : Nat → Prop) : Prop where
  numbered : Numbered functions c.graphs.size fs
  apart : ¬ O c.here.index
  old : ∀ i, O i → i < c.graph.blocks.size
  finished : Finished c'.graph G fun i => O i ∨ i = c'.here.index

section

variable {functions : Nat → Function} {fs fs' : List Function} {c c₁ c₂ : Construction}
  {G : Graph} {O : Nat → Prop}

theorem Within.first (h : Within functions (fs ++ fs') c c₂ G O) (h₂ : Builds fs' c₁ c₂) :
    Within functions fs c c₁ G O where
  numbered := h.numbered.left
  apart := h.apart
  old := h.old
  finished := by
    refine h.finished.earlier h₂.grown ?_
    rintro i hi (h' | h' | h')
    · exact .inr h'
    · exact .inl h'
    · rcases h₂.moved with hm | hm
      · rw [hm] at h'
        exact .inr h'
      · omega

theorem Within.second (h : Within functions (fs ++ fs') c c₂ G O) (h₁ : Builds fs c c₁) :
    Within functions fs' c₁ c₂ G O where
  numbered := by
    rw [h₁.size]
    exact h.numbered.right
  apart hO := by
    rcases h₁.moved with hm | hm
    · rw [hm] at hO
      exact h.apart hO
    · have := h.old _ hO
      omega
  old i hi := (h.old i hi).trans_le h₁.grown.blocks_le
  finished := h.finished

end

/-! ### Environments -/

/-- A construction at a place where some names are local; `carry` tells whether the value of an
expression is on its way to a join. -/
structure Ready (top : Bool) (known : Names) (carry : Bool) (c : Construction) : Prop where
  topLevel : c.frame.topLevel = top
  running : c.frame.done = false
  valid : c.here.index < c.graph.blocks.size
  bound : ∀ x id, c.frame.env.get? x = some id → id.index < c.graph.instrs.size
  scope : ∀ name, (c.frame.env.get? (.name name)).isSome ↔ name ∈ known
  outside : top = true → known = []
  completion : top = true → (c.frame.env.get? .completion).isSome
  result : (c.frame.env.get? .result).isSome = carry

section

variable {V σ : Type} (S : Site V σ)

/-- Registers hold the values of the variables. -/
structure Matches (c : Construction) (s : Activity V σ) (ℓ : Locals V σ) : Prop where
  vars : ∀ name, valueIn S.answerer c.frame.env s.regs (.name name) = ℓ.vars name
  completion : S.topLevel = true →
    valueIn S.answerer c.frame.env s.regs .completion = ℓ.completion
  world : s.world = ℓ.world

/-- Execution comes from the end of one construction to the end of another. -/
def Reaches (functions : Nat → Function) (G : Graph) (c : Construction) (s : Activity V σ)
    (c' : Construction) (s' : Activity V σ) : Prop :=
  Leads S.answerer functions G S.inputs c.here (lengthOf c.graph c.here) s c'.here
    (lengthOf c'.graph c'.here) s'

end

/-- How the result of building steps stands for the result of an evaluation: what must agree, and
which registers hold which values. -/
structure Reading (α β V : Type) where
  agree : α → β → Prop
  pairs : α → β → List (InstrId × V)

namespace Reading

variable {V : Type}

def nothing : Reading Unit Unit V where
  agree _ _ := True
  pairs _ _ := []

/-- An instruction stands for its value. -/
def value : Reading InstrId V V where
  agree _ _ := True
  pairs id v := [(id, v)]

def values : Reading (List InstrId) (List V) V where
  agree ids vs := ids.length = vs.length
  pairs ids vs := ids.zip vs

end Reading

section

variable {V σ α β γ δ : Type} (S : Site V σ) (known : Names)

/-- Building steps simulate an evaluation, given registers that hold values. -/
def Simulates (fs : List Function) (Γ : List (InstrId × V)) (m : ConstructM α) (e : EvalM V σ β)
    (R : Reading α β V) : Prop :=
  ∀ c a c', Ready S.topLevel known false c → (∀ p ∈ Γ, p.1.index < c.graph.instrs.size) →
    m c = .ok a c' →
    Builds fs c c' ∧ Ready S.topLevel known false c' ∧
    ((∃ b, R.agree a b) ∧
      ∀ b, R.agree a b → ∀ p ∈ R.pairs a b, p.1.index < c'.graph.instrs.size) ∧
    ∀ functions G O, Within functions fs c c' G O →
    ∀ s ℓ, Matches S c s ℓ → (∀ p ∈ Γ, s.regs p.1 = p.2) →
      ∃ s', Reaches S functions G c s c' s' ∧ Matches S c' s' (e.run ℓ).2 ∧
        Kept c.graph.instrs.size s s' ∧ R.agree a (e.run ℓ).1 ∧
        ∀ p ∈ R.pairs a (e.run ℓ).1, s'.regs p.1 = p.2

variable {S known} {fs fs' : List Function} {Γ Δ : List (InstrId × V)}

theorem Simulates.weaken {m : ConstructM α} {e : EvalM V σ β} {R : Reading α β V}
    (h : Simulates S known fs Γ m e R) (hsub : Γ ⊆ Δ) : Simulates S known fs Δ m e R := by
  intro c a c' hr hb hm
  obtain ⟨h₁, h₂, h₃, h₄⟩ := h c a c' hr (fun p hp => hb p (hsub hp)) hm
  exact ⟨h₁, h₂, h₃, fun functions G O hw s ℓ hs hΓ =>
    h₄ functions G O hw s ℓ hs fun p hp => hΓ p (hsub hp)⟩

/-- Steps in sequence simulate evaluations in sequence. -/
theorem Simulates.bind {m : ConstructM α} {f : α → ConstructM γ} {e : EvalM V σ β}
    {k : β → EvalM V σ δ} {R : Reading α β V} {R' : Reading γ δ V}
    (h₁ : Simulates S known fs Γ m e R)
    (h₂ : ∀ a b, R.agree a b → Simulates S known fs' (R.pairs a b ++ Γ) (f a) (k b) R') :
    Simulates S known (fs ++ fs') Γ (m >>= f) (e >>= k) R' := by
  intro c r c₂ hr hb hm
  obtain ⟨a, c₁, hm₁, hm₂⟩ := bind_eq_ok.mp hm
  obtain ⟨hB₁, hR₁, ⟨⟨b₀, hb₀⟩, hb₁⟩, hd₁⟩ := h₁ c a c₁ hr hb hm₁
  -- The static facts of the second part do not depend on the value.
  have second : ∀ b, R.agree a b → _ := fun b hab =>
    h₂ a b hab c₁ r c₂ hR₁ (by
      intro p hp
      rcases List.mem_append.mp hp with hp | hp
      · exact hb₁ b hab p hp
      · exact (hb p hp).trans_le hB₁.grown.instrs_le) hm₂
  obtain ⟨hB₂, hR₂, hb₂, -⟩ := second b₀ hb₀
  refine ⟨hB₁.trans hB₂, hR₂, hb₂, fun functions G O hw s ℓ hs hΓ => ?_⟩
  obtain ⟨s₁, hl₁, hs₁, hk₁, ha₁, hp₁⟩ := hd₁ functions G O (hw.first hB₂) s ℓ hs hΓ
  obtain ⟨-, -, -, hd₂⟩ := second _ ha₁
  obtain ⟨s₂, hl₂, hs₂, hk₂, ha₂, hp₂⟩ := hd₂ functions G O (hw.second hB₁) s₁ _ hs₁ (by
    intro p hp
    rcases List.mem_append.mp hp with hp | hp
    · exact hp₁ p hp
    · rw [hk₁.regs _ (hb p hp), hΓ p hp])
  exact ⟨s₂, hl₁.trans hl₂, hs₂, hk₁.trans hk₂ hB₁.grown.instrs_le, ha₂, hp₂⟩

theorem Simulates.pure {a : α} {b : β} {R : Reading α β V} (hab : R.agree a b)
    (hids : ∀ b', R.agree a b' → ∀ p ∈ R.pairs a b', ∃ q ∈ Γ, q.1 = p.1)
    (hp : R.pairs a b ⊆ Γ) :
    Simulates S known [] Γ (pure a) (pure b) R := by
  intro c a' c' hr hb hm
  obtain ⟨rfl, rfl⟩ := pure_eq_ok.mp hm
  refine ⟨builds_of_extends rfl rfl (Extends.refl _ _) (.inl rfl) hr.valid, hr, ⟨⟨b, hab⟩, ?_⟩, ?_⟩
  · intro b' hb' p hp'
    obtain ⟨q, hq, he⟩ := hids b' hb' p hp'
    rw [← he]
    exact hb q hq
  · intro functions G O _ s ℓ hs hΓ
    exact ⟨s, Leads.refl, hs, Kept.refl _ _, hab, fun p hp' => hΓ p (hp hp')⟩

end

/-! ### Statements -/

/-- How an arm ends: it goes on, maybe with the value of an expression, or it has returned. -/
inductive Exit (V : Type) where
  | next (carried : Option V)
  | returned (value : V)

def Outcome.exit {V : Type} : Outcome V → Exit V
  | .next => .next none
  | .returned value => .returned value

section

variable {V σ α β : Type} (S : Site V σ) (known : Names)

/-- Execution from the end of a construction does what an evaluation did. -/
def Follows (functions : Nat → Function) (G : Graph) (c c' : Construction) (s : Activity V σ)
    (after : Option Names) : Exit V × Locals V σ → Prop
  | (.returned v, ℓ) =>
    Returns S.answerer functions G S.inputs c.here (lengthOf c.graph c.here) s v ℓ.world
  | (.next carried, ℓ) => after.isSome ∧ ∃ s', Reaches S functions G c s c' s' ∧
    Matches S c' s' ℓ ∧ Kept c.graph.instrs.size s s' ∧
    ∀ v, carried = some v → valueIn S.answerer c'.frame.env s'.regs .result = v

/-- Building steps simulate an evaluation that may declare names or return. -/
def Executes (fs : List Function) (Γ : List (InstrId × V)) (after : Option Names) (carry : Bool)
    (m : ConstructM Unit) (e : EvalM V σ (Exit V)) : Prop :=
  ∀ c u c', Ready S.topLevel known false c → (∀ p ∈ Γ, p.1.index < c.graph.instrs.size) →
    m c = .ok u c' →
    Builds fs c c' ∧ c'.frame.done = after.isNone ∧
    (∀ k, after = some k → Ready S.topLevel k carry c') ∧
    ∀ functions G O, Within functions fs c c' G O →
    ∀ s ℓ, Matches S c s ℓ → (∀ p ∈ Γ, s.regs p.1 = p.2) →
      Follows S functions G c c' s after (e.run ℓ)

variable {S known} {fs fs' : List Function} {Γ : List (InstrId × V)}

/-- What follows from a place that is reached follows from where it is reached from. -/
theorem Follows.of_reaches {functions : Nat → Function} {G : Graph} {c c₁ c₂ : Construction}
    {s s₁ : Activity V σ} {after : Option Names} (hl : Reaches S functions G c s c₁ s₁)
    (hk : Kept c.graph.instrs.size s s₁) (hle : c.graph.instrs.size ≤ c₁.graph.instrs.size) :
    ∀ {x : Exit V × Locals V σ}, Follows S functions G c₁ c₂ s₁ after x →
      Follows S functions G c c₂ s after x
  | (.returned _, _), h => Leads.returns hl h
  | (.next _, _), ⟨hafter, s₂, hl₂, hs₂, hk₂, hc₂⟩ =>
    ⟨hafter, s₂, Leads.trans hl hl₂, hs₂, hk.trans hk₂ hle, hc₂⟩

theorem Executes.weaken {Δ : List (InstrId × V)} {m : ConstructM Unit} {e : EvalM V σ (Exit V)}
    {after : Option Names} {carry : Bool} (h : Executes S known fs Γ after carry m e)
    (hsub : Γ ⊆ Δ) : Executes S known fs Δ after carry m e := by
  intro c u c' hr hb hm
  obtain ⟨h₁, h₂, h₃, h₄⟩ := h c u c' hr (fun p hp => hb p (hsub hp)) hm
  exact ⟨h₁, h₂, h₃, fun functions G O hw s ℓ hs hΓ =>
    h₄ functions G O hw s ℓ hs fun p hp => hΓ p (hsub hp)⟩

/-- Values first, then a statement that uses them. -/
theorem Simulates.executes {m : ConstructM α} {f : α → ConstructM Unit} {e : EvalM V σ β}
    {k : β → EvalM V σ (Exit V)} {R : Reading α β V} {after : Option Names} {carry : Bool}
    (h₁ : Simulates S known fs Γ m e R)
    (h₂ : ∀ a b, R.agree a b →
      Executes S known fs' (R.pairs a b ++ Γ) after carry (f a) (k b)) :
    Executes S known (fs ++ fs') Γ after carry (m >>= f) (e >>= k) := by
  intro c u c₂ hr hb hm
  obtain ⟨a, c₁, hm₁, hm₂⟩ := bind_eq_ok.mp hm
  obtain ⟨hB₁, hR₁, ⟨⟨b₀, hb₀⟩, hb₁⟩, hd₁⟩ := h₁ c a c₁ hr hb hm₁
  have second : ∀ b, R.agree a b → _ := fun b hab =>
    h₂ a b hab c₁ u c₂ hR₁ (by
      intro p hp
      rcases List.mem_append.mp hp with hp | hp
      · exact hb₁ b hab p hp
      · exact (hb p hp).trans_le hB₁.grown.instrs_le) hm₂
  obtain ⟨hB₂, hdone, hR₂, -⟩ := second b₀ hb₀
  refine ⟨hB₁.trans hB₂, hdone, hR₂, fun functions G O hw s ℓ hs hΓ => ?_⟩
  obtain ⟨s₁, hl₁, hs₁, hk₁, ha₁, hp₁⟩ := hd₁ functions G O (hw.first hB₂) s ℓ hs hΓ
  obtain ⟨-, -, -, hd₂⟩ := second _ ha₁
  refine Follows.of_reaches hl₁ hk₁ hB₁.grown.instrs_le
    (hd₂ functions G O (hw.second hB₁) s₁ _ hs₁ ?_)
  intro p hp
  rcases List.mem_append.mp hp with hp | hp
  · exact hp₁ p hp
  · rw [hk₁.regs _ (hb p hp), hΓ p hp]

/-- Go on after a step unless it has returned. -/
def andThen (e : EvalM V σ (Exit V)) (k : EvalM V σ (Exit V)) : EvalM V σ (Exit V) := do
  match ← e with
  | .returned v => return .returned v
  | .next _ => k

theorem run_andThen (e k : EvalM V σ (Exit V)) (ℓ : Locals V σ) :
    (andThen e k).run ℓ = (andThen (pure (e.run ℓ).1) k).run (e.run ℓ).2 := rfl

theorem Executes.andThen {m : ConstructM Unit} {m' : ConstructM Unit}
    {e e' : EvalM V σ (Exit V)} {k : Names} {after : Option Names} {carry : Bool}
    (h₁ : Executes S known fs Γ (some k) false m e)
    (h₂ : Executes S k fs' Γ after carry m' e') :
    Executes S known (fs ++ fs') Γ after carry (m >>= fun _ => m') (andThen e e') := by
  intro c u c₂ hr hb hm
  obtain ⟨_, c₁, hm₁, hm₂⟩ := bind_eq_ok.mp hm
  obtain ⟨hB₁, -, hR₁, hd₁⟩ := h₁ c _ c₁ hr hb hm₁
  obtain ⟨hB₂, hdone, hR₂, hd₂⟩ := h₂ c₁ u c₂ (hR₁ k rfl)
    (fun p hp => (hb p hp).trans_le hB₁.grown.instrs_le) hm₂
  refine ⟨hB₁.trans hB₂, hdone, hR₂, fun functions G O hw s ℓ hs hΓ => ?_⟩
  have hf₁ := hd₁ functions G O (hw.first hB₂) s ℓ hs hΓ
  rw [run_andThen]
  cases hout : e.run ℓ with
  | mk exit ℓ₁ =>
    rw [hout] at hf₁
    cases exit with
    | returned v => exact hf₁
    | next carried =>
      obtain ⟨-, s₁, hl₁, hs₁, hk₁, -⟩ := hf₁
      refine Follows.of_reaches hl₁ hk₁ hB₁.grown.instrs_le
        (hd₂ functions G O (hw.second hB₁) s₁ ℓ₁ hs₁ fun p hp => ?_)
      rw [hk₁.regs _ (hb p hp), hΓ p hp]

end

end ScriptEngine.Meaning
