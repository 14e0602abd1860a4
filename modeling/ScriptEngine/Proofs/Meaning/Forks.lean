import ScriptEngine.Proofs.Meaning.Steps

/-!
Branches. The current block ends on a condition, two arms are built in new blocks from one
environment, and the arms that have not returned join. Execution goes through one of the arms.
-/

namespace ScriptEngine.Construction

/-- A branch with two arms; `order` tells for which truth the arm is that is built first. -/
def fork (test : InstrId) (order : Bool) (first second : ConstructM Unit) : ConstructM Unit := do
  let (yes, no) ← split test
  let env := (← get).frame.env
  resume (if order then yes else no) env
  first
  let arm ← capture
  resume (if order then no else yes) env
  second
  join [arm, ← capture]

end ScriptEngine.Construction

namespace ScriptEngine.Meaning

open State Construction Syntax

/-! ### Splitting -/

/-- The graph after a block was ended with a branch to two new blocks. -/
def splitGraph (g : Graph) (b : BlockId) (test : InstrId) : Graph :=
  { appended g b (.script .branch) [.value test] with
    blocks := ((appended g b (.script .branch) [.value test]).addBlock.2.addBlock.2.blocks.modify
      b.index ({ · with successors := [⟨g.blocks.size⟩, ⟨g.blocks.size + 1⟩] })) }

theorem split_eq_ok {c c' : Construction} {test : InstrId} {r : BlockId × BlockId}
    (h : split test c = .ok r c') :
    c.here.index < c.graph.blocks.size ∧
      r = (⟨c.graph.blocks.size⟩, ⟨c.graph.blocks.size + 1⟩) ∧
      c' = c.withGraph (splitGraph c.graph c.here test) := by
  obtain ⟨_, c₁, hbranch, h⟩ := bind_eq_ok.mp h
  obtain ⟨_, hbranch⟩ := discard_eq_ok.mp hbranch
  obtain ⟨hv, -, rfl⟩ := emit_eq_ok hbranch
  obtain ⟨yes, c₂, hyes, h⟩ := bind_eq_ok.mp h
  obtain ⟨rfl, rfl⟩ := build_newBlock_eq_ok hyes
  obtain ⟨no, c₃, hno, h⟩ := bind_eq_ok.mp h
  obtain ⟨rfl, rfl⟩ := build_newBlock_eq_ok hno
  obtain ⟨_, c₄, hedges, h⟩ := bind_eq_ok.mp h
  obtain ⟨b, hb, rfl⟩ := build_eq_ok.mp hedges
  obtain ⟨_, t, hget, hset⟩ := bind_eq_ok.mp hb
  obtain ⟨rfl, rfl⟩ := get_eq_ok.mp hget
  obtain ⟨-, hc⟩ := build_setSuccessors_eq_ok (build_eq_ok.mpr ⟨b, hset, rfl⟩)
  obtain ⟨rfl, rfl⟩ := pure_eq_ok.mp h
  have hsize := appended_blocks_size c.graph c.here (.script .branch) [.value test]
  have hsize' : (appended c.graph c.here (.script .branch) [.value test]).addBlock.2.blocks.size =
      c.graph.blocks.size + 1 := by
    rw [← hsize]
    exact Array.size_push ..
  refine ⟨hv, ?_, ?_⟩
  · simp only [graph_withGraph, hsize, hsize']
  · rw [hc]
    simp only [graph_withGraph, withGraph_withGraph, hsize, hsize']
    rfl

/-- What a split does. -/
structure Splits (g g' : Graph) (b : BlockId) (test : InstrId) : Prop where
  grown : Extends g g' (· = b.index)
  instrs : g'.instrs.size = g.instrs.size + 1
  size : g'.blocks.size = g.blocks.size + 2
  block : ∃ B, g.blocks[b.index]? = some B ∧ g'.blocks[b.index]? = some
    { instrs := B.instrs ++ [⟨g.instrs.size⟩],
      successors := [⟨g.blocks.size⟩, ⟨g.blocks.size + 1⟩] }
  instr : ∃ i, g'.instrs[g.instrs.size]? = some i ∧ i.op = .script .branch ∧
    i.inputs = [.value test]
  fresh : ∀ i, g.blocks.size ≤ i → i < g.blocks.size + 2 → g'.blocks[i]? = some {}

theorem splits_splitGraph {g : Graph} {b : BlockId} (test : InstrId)
    (hb : b.index < g.blocks.size) : Splits g (splitGraph g b test) b test := by
  obtain ⟨B, hB⟩ : ∃ B, g.blocks[b.index]? = some B := ⟨_, Array.getElem?_eq_getElem hb⟩
  have hsize := appended_blocks_size g b (.script .branch) [.value test]
  refine ⟨?_, by simp [splitGraph], by simp [splitGraph, Graph.addBlock], ⟨B, hB, ?_⟩,
    ⟨_, appended_instr .., rfl, rfl⟩, ?_⟩
  · refine (((extends_appended g b (.script .branch) [.value test]).trans
      (extends_addBlock _ fun _ => False)).trans ((extends_addBlock _ fun _ => False).trans
        (extends_modify _ _ b
          ({ · with successors := [⟨g.blocks.size⟩, ⟨g.blocks.size + 1⟩] })
          (fun _ _ => rfl) le_rfl fun _ => List.prefix_rfl))).mono ?_
    rintro i _ ((h | h) | h | h)
    · exact h
    · exact h.elim
    · exact h.elim
    · exact h
  · simp only [splitGraph, Graph.addBlock, Array.getElem?_modify, Array.getElem?_push,
      Array.size_push, hsize]
    simp [show b.index ≠ g.blocks.size + 1 by omega, show b.index ≠ g.blocks.size by omega,
      appended_block _ _ _ _ hB]
  · intro i h₁ h₂
    simp only [splitGraph, Graph.addBlock, Array.getElem?_modify, Array.getElem?_push,
      Array.size_push, hsize]
    rw [if_neg (by omega)]
    grind

/-- From the end of a block that was split, execution goes on in the arm that the truth of the
value tells. -/
theorem Splits.leads {g g' : Graph} {b : BlockId} {test : InstrId} (h : Splits g g' b test)
    {V σ : Type} (A : Answerer V σ) (functions : Nat → Function) (inputs : Inputs V) {G : Graph}
    {O : Nat → Prop} (hG : Finished g' G O) (hO : ¬ O b.index) (s : Activity V σ) :
    Leads A functions G inputs b (lengthOf g b) s
      (if (A.truth (s.regs test) s.world).1 then ⟨g.blocks.size⟩ else ⟨g.blocks.size + 1⟩) 0
      { s with
        condition := none, received := s.passed, passed := []
        world := (A.truth (s.regs test) s.world).2 } := by
  obtain ⟨B, hB, hB'⟩ := h.block
  obtain ⟨i, hi, hop, hins⟩ := h.instr
  have hlt := (Array.getElem?_eq_some_iff.mp hB').1
  have hGB := (hG.closed _ hlt hO).trans hB'
  have hGi := (hG.instrs g.instrs.size (by rw [h.instrs]; omega)).trans hi
  have hrun : runBody A functions G inputs [⟨g.instrs.size⟩] s = some (.fell,
      { s with
        condition := some (A.truth (s.regs test) s.world).1
        world := (A.truth (s.regs test) s.world).2 }) := by
    rw [runBody_cons _ _ _ _ ⟨g.instrs.size⟩ _ _ hGi (by simp [hop]), hop, hins]
    rfl
  have hlen : lengthOf g b = B.instrs.length := by simp [lengthOf, hB]
  rw [hlen]
  refine (leads_of_runBody hGB (List.append_nil _).symm hrun).trans (leads_of_jump hGB rfl ?_)
  have := (Array.getElem?_eq_some_iff.mp hB).1
  split <;> simp <;> omega

/-! ### Arms -/

/-- An arm starts in a new block with the environment from before the branch. -/
def armAt (c : Construction) (b : BlockId) (env : Env) : Construction :=
  { c with frame := { c.frame with
    builder := { c.frame.builder with current := b }, env, done := false } }

/-- The end of a construction as an edge of a join. -/
def armOf (c : Construction) : Arm :=
  { block := c.here, env := c.frame.env, done := c.frame.done }

theorem capture_eq_ok {c c' : Construction} {a : Arm} (h : capture c = .ok a c') :
    a = armOf c ∧ c' = c := by
  obtain ⟨_, t, hget, h⟩ := bind_eq_ok.mp h
  obtain ⟨rfl, rfl⟩ := get_eq_ok.mp hget
  obtain ⟨rfl, rfl⟩ := pure_eq_ok.mp h
  exact ⟨rfl, rfl⟩

/-- The stages of a branch: its split, both arms and their join. -/
theorem fork_eq_ok {c c' : Construction} {test : InstrId} {order : Bool}
    {first second : ConstructM Unit} {u : Unit}
    (h : fork test order first second c = .ok u c') :
    ∃ b₁ b₂ c₁ c₂, c.here.index < c.graph.blocks.size ∧
      (c.graph.blocks.size ≤ b₁.index ∧ b₁.index < c.graph.blocks.size + 2) ∧
      (c.graph.blocks.size ≤ b₂.index ∧ b₂.index < c.graph.blocks.size + 2) ∧
      b₁.index ≠ b₂.index ∧
      (∀ holds : Bool, (if holds then (⟨c.graph.blocks.size⟩ : BlockId) else
        ⟨c.graph.blocks.size + 1⟩) = if holds = order then b₁ else b₂) ∧
      first (armAt (c.withGraph (splitGraph c.graph c.here test)) b₁ c.frame.env) = .ok ⟨⟩ c₁ ∧
      second (armAt c₁ b₂ c.frame.env) = .ok ⟨⟩ c₂ ∧ join [armOf c₁, armOf c₂] c₂ = .ok u c' := by
  obtain ⟨_, t, hsplit, h⟩ := bind_eq_ok.mp h
  obtain ⟨hv, rfl, rfl⟩ := split_eq_ok hsplit
  obtain ⟨_, t, hget, h⟩ := bind_eq_ok.mp h
  obtain ⟨rfl, rfl⟩ := get_eq_ok.mp hget
  obtain ⟨_, t, hres, h⟩ := bind_eq_ok.mp h
  obtain rfl := resume_eq_ok hres
  obtain ⟨_, c₁, hfirst, h⟩ := bind_eq_ok.mp h
  obtain ⟨a₁, t, hcap, h⟩ := bind_eq_ok.mp h
  obtain ⟨rfl, rfl⟩ := capture_eq_ok hcap
  obtain ⟨_, t, hres, h⟩ := bind_eq_ok.mp h
  obtain rfl := resume_eq_ok hres
  obtain ⟨_, c₂, hsecond, h⟩ := bind_eq_ok.mp h
  obtain ⟨a₂, t, hcap, hjoin⟩ := bind_eq_ok.mp h
  obtain ⟨rfl, rfl⟩ := capture_eq_ok hcap
  refine ⟨_, _, _, t, hv, ?_, ?_, ?_, fun holds => ?_, hfirst, hsecond, hjoin⟩
  · cases order <;> simp
  · cases order <;> simp
  · cases order <;> simp
  · cases holds <;> cases order <;> rfl

/-- What a join of two arms does, whether they have returned or not. -/
structure Meets (c c' : Construction) (a₁ a₂ : Arm) : Prop where
  graphs : c'.graphs = c.graphs
  topLevel : c'.frame.topLevel = c.frame.topLevel
  grown : Extends c.graph c'.graph fun i => i = a₁.block.index ∨ i = a₂.block.index
  moved : c'.here = c.here ∨ c'.here = ⟨c.graph.blocks.size⟩
  valid : c'.here.index < c'.graph.blocks.size
  done : c'.frame.done = (a₁.done && a₂.done)
  live : ∀ a, a = a₁ ∨ a = a₂ → a.done = false →
    Joined c c' ([a₁, a₂].filter (!·.done)) ∧ a ∈ [a₁, a₂].filter (!·.done)

theorem join_eq_ok {c c' : Construction} {a₁ a₂ : Arm} {u : Unit}
    (h : join [a₁, a₂] c = .ok u c') (hne : a₁.block.index ≠ a₂.block.index)
    (hhere : c.here.index < c.graph.blocks.size)
    (hvalid : ∀ a, a = a₁ ∨ a = a₂ → a.block.index < c.graph.blocks.size)
    (hbound : ∀ a, a = a₁ ∨ a = a₂ → a.done = false → ∀ x id, a.env.get? x = some id →
      id.index < c.graph.instrs.size) :
    Meets c c' a₁ a₂ := by
  have hmem : ∀ a, a ∈ [a₁, a₂].filter (!·.done) ↔ (a = a₁ ∨ a = a₂) ∧ a.done = false := by
    intro a
    simp [List.mem_filter]
  by_cases hlive : [a₁, a₂].filter (!·.done) = []
  · have hdead : ∀ a, a = a₁ ∨ a = a₂ → a.done = true := by
      intro a ha
      by_contra hd
      have := (hmem a).mpr ⟨ha, by simpa using hd⟩
      simp [hlive] at this
    unfold join at h
    simp only [hlive] at h
    rw [if_pos List.isEmpty_nil] at h
    obtain rfl := modifyFrame_eq_ok.mp h
    refine ⟨rfl, rfl, Extends.refl _ _, .inl rfl, hhere, ?_, ?_⟩
    · rw [hdead a₁ (.inl rfl), hdead a₂ (.inr rfl)]
      rfl
    · intro a ha hd
      rw [hdead a ha] at hd
      cases hd
  · have hnodup : (([a₁, a₂].filter (!·.done)).map (·.block.index)).Nodup := by
      have hsub : List.Sublist (([a₁, a₂].filter (!·.done)).map (·.block.index))
          ([a₁, a₂].map (·.block.index)) := List.Sublist.map _ List.filter_sublist
      apply hsub.nodup
      simpa using hne
    have hj := join_of_live h hlive hnodup
      (fun a ha => hvalid a ((hmem a).mp ha).1)
      (fun a ha => hbound a ((hmem a).mp ha).1 ((hmem a).mp ha).2)
    refine ⟨hj.graphs, hj.topLevel, hj.grown.mono ?_, .inr hj.here, ?_, ?_, ?_⟩
    · rintro i _ ⟨a, ha, rfl⟩
      rcases ((hmem a).mp ha).1 with rfl | rfl
      · exact .inl rfl
      · exact .inr rfl
    · rw [hj.here, hj.size]
      exact Nat.lt_succ_self _
    · rw [hj.running]
      obtain ⟨a, ha⟩ := List.exists_mem_of_ne_nil _ hlive
      obtain ⟨rfl | rfl, hd⟩ := (hmem a).mp ha <;> simp [hd]
    · intro a ha hd
      exact ⟨hj, (hmem a).mpr ⟨ha, hd⟩⟩

/-! ### Both arms together -/

/-- Two arms of a branch were built, one after the other. -/
structure Arms (fs₁ fs₂ : List Function) (test : InstrId) (b₁ b₂ : BlockId)
    (c c₁ c₂ : Construction) : Prop where
  start : c.here.index < c.graph.blocks.size
  new₁ : c.graph.blocks.size ≤ b₁.index ∧ b₁.index < c.graph.blocks.size + 2
  new₂ : c.graph.blocks.size ≤ b₂.index ∧ b₂.index < c.graph.blocks.size + 2
  ne : b₁.index ≠ b₂.index
  first : Builds fs₁ (armAt (c.withGraph (splitGraph c.graph c.here test)) b₁ c.frame.env) c₁
  second : Builds fs₂ (armAt c₁ b₂ c.frame.env) c₂

section

variable {fs₁ fs₂ : List Function} {test : InstrId} {b₁ b₂ : BlockId} {c c₁ c₂ c' : Construction}

theorem Arms.splits (h : Arms fs₁ fs₂ test b₁ b₂ c c₁ c₂) :
    Splits c.graph (splitGraph c.graph c.here test) c.here test :=
  splits_splitGraph test h.start

theorem Arms.size₁ (h : Arms fs₁ fs₂ test b₁ b₂ c c₁ c₂) :
    c.graph.blocks.size + 2 ≤ c₁.graph.blocks.size := by
  rw [← h.splits.size]
  exact h.first.grown.blocks_le

theorem Arms.size₂ (h : Arms fs₁ fs₂ test b₁ b₂ c c₁ c₂) :
    c₁.graph.blocks.size ≤ c₂.graph.blocks.size := h.second.grown.blocks_le

theorem Arms.instrs₁ (h : Arms fs₁ fs₂ test b₁ b₂ c c₁ c₂) :
    c.graph.instrs.size ≤ c₁.graph.instrs.size :=
  h.splits.grown.instrs_le.trans h.first.grown.instrs_le

/-- The first arm ends in its own block or in one that it made. -/
theorem Arms.end₁ (h : Arms fs₁ fs₂ test b₁ b₂ c c₁ c₂) :
    c₁.here = b₁ ∨ c.graph.blocks.size + 2 ≤ c₁.here.index := by
  rw [← h.splits.size]
  exact h.first.moved

theorem Arms.end₂ (h : Arms fs₁ fs₂ test b₁ b₂ c c₁ c₂) :
    c₂.here = b₂ ∨ c₁.graph.blocks.size ≤ c₂.here.index := h.second.moved

theorem Arms.end₁_new (h : Arms fs₁ fs₂ test b₁ b₂ c c₁ c₂) :
    c.graph.blocks.size ≤ c₁.here.index := by
  have := h.new₁
  rcases h.end₁ with he | he
  · rw [he]
    omega
  · omega

theorem Arms.end₂_new (h : Arms fs₁ fs₂ test b₁ b₂ c c₁ c₂) :
    c.graph.blocks.size ≤ c₂.here.index := by
  have := h.new₂
  have := h.size₁
  rcases h.end₂ with he | he
  · rw [he]
    omega
  · omega

theorem Arms.apart (h : Arms fs₁ fs₂ test b₁ b₂ c c₁ c₂) :
    c₁.here.index ≠ b₂.index ∧ c₁.here.index ≠ c₂.here.index := by
  have hne := h.ne
  have h₂ := h.new₂
  have hv := h.first.valid
  have hb : c₁.here.index ≠ b₂.index := by
    rcases h.end₁ with he | he
    · rw [he]
      exact hne
    · omega
  refine ⟨hb, ?_⟩
  rcases h.end₂ with he | he
  · rwa [he]
  · omega

/-- What both arms did to the graph, up to the join. -/
theorem Arms.grown (h : Arms fs₁ fs₂ test b₁ b₂ c c₁ c₂) :
    Extends c.graph c₂.graph (· = c.here.index) := by
  refine ((h.splits.grown.trans h.first.grown).trans h.second.grown).mono ?_
  have h₁ := h.new₁
  have h₂ := h.new₂
  rintro i hi ((he | he) | he)
  · exact he
  · change i = b₁.index at he
    omega
  · change i = b₂.index at he
    omega

theorem Arms.builds (h : Arms fs₁ fs₂ test b₁ b₂ c c₁ c₂)
    (hj : Meets c₂ c' (armOf c₁) (armOf c₂)) : Builds (fs₁ ++ fs₂) c c' where
  toAdds := by
    have ha : Adds fs₂ c₁.graphs c'.graphs := hj.graphs ▸ h.second.toAdds
    exact h.first.toAdds.trans ha
  grown := by
    have h₁ := h.end₁_new
    have h₂ := h.end₂_new
    refine (h.grown.trans hj.grown).mono ?_
    rintro i hi (he | he | he)
    · exact he
    · change i = c₁.here.index at he
      omega
    · change i = c₂.here.index at he
      omega
  moved := by
    have h₁ := h.size₁
    have h₂ := h.size₂
    have h₃ := h.end₂_new
    right
    rcases hj.moved with he | he
    · rwa [he]
    · rw [he]
      change _ ≤ c₂.graph.blocks.size
      omega
  valid := hj.valid
  topLevel := hj.topLevel.trans (h.second.topLevel.trans h.first.topLevel)

variable {functions : Nat → Function} {G : Graph} {O : Nat → Prop}

/-- The finished graph around the second arm: the end of the first arm is still open. -/
theorem Arms.within₂ (h : Arms fs₁ fs₂ test b₁ b₂ c c₁ c₂)
    (hj : Meets c₂ c' (armOf c₁) (armOf c₂)) (hw : Within functions (fs₁ ++ fs₂) c c' G O) :
    Within functions fs₂ (armAt c₁ b₂ c.frame.env) c₂ G fun i => O i ∨ i = c₁.here.index where
  numbered := by
    change Numbered functions c₁.graphs.size fs₂
    rw [h.first.size]
    exact hw.numbered.right
  apart := by
    have h₂ := h.new₂
    rintro (hO | he)
    · change O b₂.index at hO
      have := hw.old _ hO
      omega
    · exact h.apart.1 he.symm
  old := by
    have h₁ := h.size₁
    rintro i (hO | he)
    · have := hw.old i hO
      change i < c₁.graph.blocks.size
      omega
    · rw [he]
      exact h.first.valid
  finished := by
    refine hw.finished.earlier hj.grown ?_
    rintro i hi ((he | he) | hO | he)
    · exact .inl (.inr he)
    · exact .inr he
    · exact .inl (.inl hO)
    · rcases hj.moved with hm | hm
      · exact .inr (he.trans (by rw [hm]))
      · rw [hm] at he
        change i = c₂.graph.blocks.size at he
        omega

/-- The finished graph around the first arm: the start of the second arm is still open. -/
theorem Arms.within₁ (h : Arms fs₁ fs₂ test b₁ b₂ c c₁ c₂)
    (hj : Meets c₂ c' (armOf c₁) (armOf c₂)) (hw : Within functions (fs₁ ++ fs₂) c c' G O) :
    Within functions fs₁ (armAt (c.withGraph (splitGraph c.graph c.here test)) b₁ c.frame.env) c₁ G
      fun i => O i ∨ i = b₂.index where
  numbered := hw.numbered.left
  apart := by
    have h₁ := h.new₁
    rintro (hO | he)
    · change O b₁.index at hO
      have := hw.old _ hO
      omega
    · exact h.ne he
  old := by
    have hs := h.splits.size
    have h₂ := h.new₂
    rintro i (hO | he)
    · have := hw.old i hO
      change i < (splitGraph c.graph c.here test).blocks.size
      omega
    · change i < (splitGraph c.graph c.here test).blocks.size
      omega
  finished := by
    refine (h.within₂ hj hw).finished.earlier h.second.grown ?_
    rintro i hi (he | (hO | he) | he)
    · exact .inl (.inr he)
    · exact .inl (.inl hO)
    · exact .inr he
    · rcases h.end₂ with hm | hm
      · rw [hm] at he
        exact .inl (.inr he)
      · omega

end

/-! ### Execution of a branch -/

theorem Ready.armAt {top : Bool} {known : Names} {c t : Construction} {b : BlockId}
    (hr : Ready top known false c) (hi : c.graph.instrs.size ≤ t.graph.instrs.size)
    (ht : t.frame.topLevel = c.frame.topLevel) (hb : b.index < t.graph.blocks.size) :
    Ready top known false (armAt t b c.frame.env) where
  topLevel := ht.trans hr.topLevel
  running := rfl
  valid := hb
  bound x id h := (hr.bound x id h).trans_le hi
  scope := hr.scope
  outside := hr.outside
  completion := hr.completion
  result := hr.result

theorem mem_meet {after₁ after₂ : Option Names} {k : Names} (h : meet after₁ after₂ = some k)
    (name : String) : name ∈ k ↔
      (∃ k₁, after₁ = some k₁ ∧ name ∈ k₁) ∨ ∃ k₂, after₂ = some k₂ ∧ name ∈ k₂ := by
  cases after₁ <;> cases after₂ <;> cases h <;> simp

theorem isNone_meet (after₁ after₂ : Option Names) :
    (meet after₁ after₂).isNone = (after₁.isNone && after₂.isNone) := by
  cases after₁ <;> cases after₂ <;> rfl

theorem isSome_meet (after₁ after₂ : Option Names) :
    (meet after₁ after₂).isSome = (after₁.isSome || after₂.isSome) := by
  cases after₁ <;> cases after₂ <;> rfl

/-- What holds of the variables of every arm holds after the join. -/
theorem Joined.ready {top carry : Bool} {c c' : Construction} {live : List Arm} {k : Names}
    (hj : Joined c c' live) (ht : c.frame.topLevel = top) (hne : live ≠ [])
    (hall : ∀ a ∈ live, ∃ t k', a = armOf t ∧ Ready top k' carry t ∧ k' ⊆ k)
    (hnames : ∀ name ∈ k, ∃ a ∈ live, (a.env.get? (.name name)).isSome) :
    Ready top k carry c' := by
  obtain ⟨a₀, ha₀⟩ := List.exists_mem_of_ne_nil live hne
  obtain ⟨t₀, k₀, rfl, hr₀, -⟩ := hall a₀ ha₀
  refine ⟨hj.topLevel.trans ht, hj.running, ?_, hj.bound, ?_, ?_, ?_, ?_⟩
  · rw [hj.here, hj.size]
    exact Nat.lt_succ_self _
  · intro name
    rw [hj.env]
    constructor
    · rintro ⟨a, ha, h⟩
      obtain ⟨t, k', rfl, hr', hsub⟩ := hall a ha
      exact hsub ((hr'.scope name).mp h)
    · exact hnames name
  · intro htop
    rw [List.eq_nil_iff_forall_not_mem]
    intro name hn
    obtain ⟨a, ha, h⟩ := hnames name hn
    obtain ⟨t, k', rfl, hr', -⟩ := hall a ha
    have h' := (hr'.scope name).mp h
    rw [hr'.outside htop] at h'
    simp at h'
  · intro htop
    exact (hj.env _).mpr ⟨_, ha₀, hr₀.completion htop⟩
  · rw [Bool.eq_iff_iff, hj.env]
    constructor
    · rintro ⟨a, ha, h⟩
      obtain ⟨t, k', rfl, hr', -⟩ := hall a ha
      rw [← hr'.result]
      exact h
    · intro h
      exact ⟨_, ha₀, by rw [← h, ← hr₀.result]; rfl⟩

/-- After a join those names are local that are local at the end of an arm that has not
returned. -/
theorem Meets.ready {top carry : Bool} {c c₁ c₂ c' : Construction} {after₁ after₂ : Option Names}
    (hj : Meets c c' (armOf c₁) (armOf c₂)) (hd₁ : c₁.frame.done = after₁.isNone)
    (hd₂ : c₂.frame.done = after₂.isNone) (hr₁ : ∀ k, after₁ = some k → Ready top k carry c₁)
    (hr₂ : ∀ k, after₂ = some k → Ready top k carry c₂) (ht : c.frame.topLevel = top) :
    ∀ k, meet after₁ after₂ = some k → Ready top k carry c' := by
  intro k hk
  have live₁ : ∀ k₁, after₁ = some k₁ → (armOf c₁).done = false := by
    rintro k₁ rfl
    exact hd₁
  have live₂ : ∀ k₂, after₂ = some k₂ → (armOf c₂).done = false := by
    rintro k₂ rfl
    exact hd₂
  have hsome : ∃ a, (a = armOf c₁ ∨ a = armOf c₂) ∧ a.done = false := by
    cases h₁ : after₁ with
    | some k₁ => exact ⟨_, .inl rfl, live₁ k₁ h₁⟩
    | none =>
      cases h₂ : after₂ with
      | some k₂ => exact ⟨_, .inr rfl, live₂ k₂ h₂⟩
      | none => rw [h₁, h₂] at hk; cases hk
  obtain ⟨a, ha, hd⟩ := hsome
  obtain ⟨hjoin, hmem⟩ := hj.live a ha hd
  refine hjoin.ready ht (List.ne_nil_of_mem hmem) ?_ ?_
  · intro a' ha'
    obtain ⟨hor, hlive⟩ := List.mem_filter.mp ha'
    rcases List.mem_pair.mp hor with rfl | rfl
    · have hs : c₁.frame.done = false := by simpa [armOf] using hlive
      rw [hd₁] at hs
      obtain ⟨k₁, h₁⟩ := Option.isSome_iff_exists.mp (by simpa using hs)
      exact ⟨c₁, k₁, rfl, hr₁ k₁ h₁, fun n hn => (mem_meet hk n).mpr (.inl ⟨k₁, h₁, hn⟩)⟩
    · have hs : c₂.frame.done = false := by simpa [armOf] using hlive
      rw [hd₂] at hs
      obtain ⟨k₂, h₂⟩ := Option.isSome_iff_exists.mp (by simpa using hs)
      exact ⟨c₂, k₂, rfl, hr₂ k₂ h₂, fun n hn => (mem_meet hk n).mpr (.inr ⟨k₂, h₂, hn⟩)⟩
  · intro name hn
    rcases (mem_meet hk name).mp hn with ⟨k₁, h₁, hn₁⟩ | ⟨k₂, h₂, hn₂⟩
    · exact ⟨_, (hj.live _ (.inl rfl) (live₁ k₁ h₁)).2, ((hr₁ k₁ h₁).scope name).mpr hn₁⟩
    · exact ⟨_, (hj.live _ (.inr rfl) (live₂ k₂ h₂)).2, ((hr₂ k₂ h₂).scope name).mpr hn₂⟩

section

variable {V σ : Type} {S : Site V σ} {known : Names} {Γ : List (InstrId × V)}

/-- From the end of an arm that has not returned, execution goes on after the join. -/
theorem Meets.follows {c t t' c' : Construction} {a₁ a₂ : Arm} {functions : Nat → Function}
    {G : Graph} {O : Nat → Prop} {s : Activity V σ} {afterArm after : Option Names}
    (hj : Meets c c' a₁ a₂) (ha : armOf t' = a₁ ∨ armOf t' = a₂)
    (hd : t'.frame.done = afterArm.isNone) (hafter : afterArm.isSome → after.isSome)
    (hG : Finished c'.graph G O)
    (hO : c'.here = ⟨c.graph.blocks.size⟩ → ¬ O t'.here.index)
    (hlen : lengthOf c.graph t'.here = lengthOf t'.graph t'.here)
    (ht : t.graph.instrs.size ≤ c.graph.instrs.size) :
    ∀ {x : Exit V × Locals V σ}, Follows S functions G t t' s afterArm x →
      Follows S functions G t c' s after x
  | (.returned _, _), h => h
  | (.next carried, ℓ), ⟨hsome, s₁, hl₁, hs₁, hk₁, hc₁⟩ => by
    have hlive : (armOf t').done = false := by
      change t'.frame.done = false
      rw [hd]
      simpa using hsome
    obtain ⟨hjoin, hmem⟩ := hj.live _ ha hlive
    obtain ⟨s₂, hl₂, hw₂, hk₂, hv₂⟩ :=
      hjoin.leads _ hmem S.answerer functions S.inputs G O s₁ hG (hO hjoin.here)
    have hl₂ : Leads S.answerer functions G S.inputs t'.here (lengthOf t'.graph t'.here) s₁
        c'.here (lengthOf c'.graph c'.here) s₂ := hlen ▸ hl₂
    refine ⟨hafter hsome, s₂, Leads.trans hl₁ hl₂, ⟨?_, ?_, ?_⟩, hk₁.trans hk₂ ht, ?_⟩
    · intro name
      exact (hv₂ _).trans (hs₁.vars name)
    · intro htop
      exact (hv₂ _).trans (hs₁.completion htop)
    · exact hw₂.trans hs₁.world
    · intro v hv
      exact (hv₂ _).trans (hc₁ v hv)

/-- Execution comes from a split to the start of the arm that the truth of the value tells. -/
theorem reaches_arm {c t : Construction} {b : BlockId} {test : InstrId} {v : V}
    {functions : Nat → Function} {G : Graph} {O : Nat → Prop} {s : Activity V σ} {ℓ : Locals V σ}
    (hsplit : Splits c.graph (splitGraph c.graph c.here test) c.here test)
    (hG : Finished (splitGraph c.graph c.here test) G O) (hO : ¬ O c.here.index)
    (hs : Matches S c s ℓ) (hv : s.regs test = v)
    (hb : (if ((S.truth v).run ℓ).1 then (⟨c.graph.blocks.size⟩ : BlockId) else
      ⟨c.graph.blocks.size + 1⟩) = b) (hlen : lengthOf t.graph b = 0) :
    ∃ s', Reaches S functions G c s (armAt t b c.frame.env) s' ∧
      Matches S (armAt t b c.frame.env) s' ((S.truth v).run ℓ).2 ∧ s'.regs = s.regs ∧
      s'.pushed = s.pushed := by
  have hl := hsplit.leads S.answerer functions S.inputs hG hO s
  have htruth : (S.truth v).run ℓ = ((S.answerer.truth (s.regs test) s.world).1,
      { ℓ with world := (S.answerer.truth (s.regs test) s.world).2 }) := by
    rw [hv, hs.world]
    rfl
  rw [htruth] at hb ⊢
  rw [hb] at hl
  refine ⟨{ s with
      condition := none, received := s.passed, passed := []
      world := (S.answerer.truth (s.regs test) s.world).2 },
    ?_, ⟨hs.vars, hs.completion, rfl⟩, rfl, rfl⟩
  change Leads S.answerer functions G S.inputs c.here _ s b (lengthOf t.graph b) _
  rw [hlen]
  exact hl

theorem lengthOf_of_fresh {g : Graph} {b : BlockId} (h : g.blocks[b.index]? = some {}) :
    lengthOf g b = 0 := by
  simp [lengthOf, h]

/-- A branch simulates the choice between its arms. -/
theorem executes_fork (order : Bool) {carry : Bool} {fs₁ fs₂ : List Function} {test : InstrId} {v : V}
    {first second : ConstructM Unit} {e₁ e₂ : EvalM V σ (Exit V)} {after₁ after₂ : Option Names}
    (hv : (test, v) ∈ Γ) (h₁ : Executes S known fs₁ Γ after₁ carry first e₁)
    (h₂ : Executes S known fs₂ Γ after₂ carry second e₂) :
    Executes S known (fs₁ ++ fs₂) Γ (meet after₁ after₂) carry (fork test order first second)
      (do if (← S.truth v) = order then e₁ else e₂) := by
  intro c u c' hr hb h
  obtain ⟨b₁, b₂, c₁, c₂, hvalid, hb₁, hb₂, hne, hblocks, hfirst, hsecond, hjoin⟩ := fork_eq_ok h
  have hsplit := splits_splitGraph test hvalid
  have hr₁ : Ready S.topLevel known false
      (armAt (c.withGraph (splitGraph c.graph c.here test)) b₁ c.frame.env) := by
    refine Ready.armAt hr ?_ rfl ?_
    · exact hsplit.grown.instrs_le
    · rw [graph_withGraph, hsplit.size]
      exact hb₁.2
  obtain ⟨hB₁, hd₁, hk₁, hf₁⟩ := h₁ _ _ c₁ hr₁
    (fun p hp => (hb p hp).trans_le hsplit.grown.instrs_le) hfirst
  have hle₁ : c.graph.instrs.size ≤ c₁.graph.instrs.size :=
    hsplit.grown.instrs_le.trans hB₁.grown.instrs_le
  have hsize₁ : (splitGraph c.graph c.here test).blocks.size ≤ c₁.graph.blocks.size :=
    hB₁.grown.blocks_le
  have hr₂ : Ready S.topLevel known false (armAt c₁ b₂ c.frame.env) := by
    apply hr.armAt hle₁ hB₁.topLevel
    rw [hsplit.size] at hsize₁
    omega
  obtain ⟨hB₂, hd₂, hk₂, hf₂⟩ := h₂ _ _ c₂ hr₂ (fun p hp => (hb p hp).trans_le hle₁) hsecond
  have arms : Arms fs₁ fs₂ test b₁ b₂ c c₁ c₂ := ⟨hvalid, hb₁, hb₂, hne, hB₁, hB₂⟩
  have hj : Meets c₂ c' (armOf c₁) (armOf c₂) := by
    refine join_eq_ok hjoin arms.apart.2 hB₂.valid ?_ ?_
    · rintro a (rfl | rfl)
      · exact hB₁.valid.trans_le arms.size₂
      · exact hB₂.valid
    · rintro a (rfl | rfl) hd x id hx
      · have hsome : after₁.isSome := by simpa [armOf, hd₁] using hd
        obtain ⟨k, hk⟩ := Option.isSome_iff_exists.mp hsome
        exact ((hk₁ k hk).bound x id hx).trans_le hB₂.grown.instrs_le
      · have hsome : after₂.isSome := by simpa [armOf, hd₂] using hd
        obtain ⟨k, hk⟩ := Option.isSome_iff_exists.mp hsome
        exact (hk₂ k hk).bound x id hx
  have htop : c₂.frame.topLevel = S.topLevel := hB₂.topLevel.trans hr₂.topLevel
  refine ⟨arms.builds hj, ?_, hj.ready hd₁ hd₂ hk₁ hk₂ htop, ?_⟩
  · rw [hj.done, isNone_meet, ← hd₁, ← hd₂]
    rfl
  intro functions G O hw s ℓ hs hΓ
  have hw₁ := arms.within₁ hj hw
  have hw₂ := arms.within₂ hj hw
  have hG : Finished (splitGraph c.graph c.here test) G
      fun i => i = b₁.index ∨ (O i ∨ i = b₂.index) ∨ i = c₁.here.index :=
    hw₁.finished.earlier hB₁.grown fun i _ h => h
  have hO : ¬ (c.here.index = b₁.index ∨ (O c.here.index ∨ c.here.index = b₂.index) ∨
      c.here.index = c₁.here.index) := by
    have := arms.end₁_new
    rintro (h | (h | h) | h)
    · omega
    · exact hw.apart h
    · omega
    · omega
  -- The join leaves the ends of the arms closed.
  have hO' : ∀ b : BlockId, c.graph.blocks.size ≤ b.index → b.index < c₂.graph.blocks.size →
      c'.here = ⟨c₂.graph.blocks.size⟩ → ¬ (O b.index ∨ b.index = c'.here.index) := by
    rintro b hnew hold hhere (h | h)
    · have := hw.old _ h
      omega
    · rw [hhere] at h
      exact hold.ne h
  change Follows S functions G c c' s (meet after₁ after₂)
    ((if ((S.truth v).run ℓ).1 = order then e₁ else e₂ : EvalM V σ (Exit V)).run
      ((S.truth v).run ℓ).2)
  have hblock := hblocks ((S.truth v).run ℓ).1
  by_cases ho : ((S.truth v).run ℓ).1 = order
  · rw [if_pos ho] at hblock ⊢
    have hlen : lengthOf (splitGraph c.graph c.here test) b₁ = 0 :=
      lengthOf_of_fresh (hsplit.fresh _ hb₁.1 hb₁.2)
    obtain ⟨s', hl, hs', hregs, hpushed⟩ := reaches_arm
      (t := c.withGraph (splitGraph c.graph c.here test)) hsplit hG hO hs (hΓ _ hv) hblock hlen
    have hf := hf₁ functions G _ hw₁ s' _ hs' fun p hp => by rw [hregs]; exact hΓ p hp
    have hend : lengthOf c₂.graph c₁.here = lengthOf c₁.graph c₁.here := by
      unfold lengthOf
      rw [show c₂.graph.blocks[c₁.here.index]? = c₁.graph.blocks[c₁.here.index]? from
        hB₂.grown.closed _ hB₁.valid arms.apart.1]
    refine Follows.of_reaches hl ⟨fun id _ => by rw [hregs], hpushed⟩ hsplit.grown.instrs_le
      (hj.follows (.inl rfl) hd₁ ?_ hw.finished ?_ hend ?_ hf)
    · intro hsome
      rw [isSome_meet, hsome, Bool.true_or]
    · exact hO' _ arms.end₁_new (hB₁.valid.trans_le arms.size₂)
    · exact hB₁.grown.instrs_le.trans hB₂.grown.instrs_le
  · rw [if_neg ho] at hblock ⊢
    have hlen : lengthOf c₁.graph b₂ = 0 := by
      apply lengthOf_of_fresh
      have hold := hB₁.grown.closed b₂.index
        (by change _ < (splitGraph c.graph c.here test).blocks.size; rw [hsplit.size]; exact hb₂.2)
        hne.symm
      exact hold.trans (hsplit.fresh _ hb₂.1 hb₂.2)
    obtain ⟨s', hl, hs', hregs, hpushed⟩ := reaches_arm (t := c₁) hsplit hG hO hs (hΓ _ hv)
      hblock hlen
    have hf := hf₂ functions G _ hw₂ s' _ hs' fun p hp => by rw [hregs]; exact hΓ p hp
    refine Follows.of_reaches hl ⟨fun id _ => by rw [hregs], hpushed⟩ hle₁
      (hj.follows (.inr rfl) hd₂ ?_ hw.finished ?_ rfl hB₂.grown.instrs_le hf)
    · intro hsome
      rw [isSome_meet, hsome, Bool.or_true]
    · exact hO' _ arms.end₂_new hB₂.valid

/-! ### Expressions with arms -/

/-- An evaluation whose value is carried to a join. -/
abbrev carried (e : EvalM V σ V) : EvalM V σ (Exit V) := e >>= fun v => pure (.next (some v))

theorem executes_insertResult {id : InstrId} {v : V} (hv : (id, v) ∈ Γ) :
    Executes S known [] Γ (some known) true (envInsert .result id)
      (pure (.next (some v))) := by
  intro c u c' hr hb h
  obtain rfl := envInsert_eq_ok.mp h
  have hready : Ready S.topLevel known true (withEnv c (c.frame.env.insert .result id)) :=
    hr.insert (hb _ hv) (by simp) (fun _ => rfl) (by simp)
  refine ⟨builds_withEnv _ hr.valid, hr.running, fun k hk => ?_, ?_⟩
  · cases hk
    exact hready
  · intro functions G O _ s ℓ hs hΓ
    refine ⟨rfl, s, Leads.refl, ⟨?_, ?_, hs.world⟩, Kept.refl _ _, ?_⟩
    · intro name
      change valueIn _ (c.frame.env.insert .result id) _ _ = ℓ.vars name
      rw [valueIn_insert, if_neg (by simp), hs.vars]
    · intro ht
      change valueIn _ (c.frame.env.insert .result id) _ _ = ℓ.completion
      rw [valueIn_insert, if_neg (by simp), hs.completion ht]
    · intro w hw
      cases hw
      change valueIn _ (c.frame.env.insert .result id) _ _ = v
      rw [valueIn_insert, if_pos rfl]
      exact hΓ _ hv

/-- One arm of an expression. -/
theorem Simulates.resultArm {m : ConstructM InstrId} {e : EvalM V σ V} {fs : List Function}
    (h : Simulates S known fs Γ m e Reading.value) :
    Executes S known fs Γ (some known) true (m >>= envInsert .result) (carried e) := by
  rw [← List.append_nil fs]
  exact h.executes fun id v _ => executes_insertResult (by simp [Reading.value])

/-- The value that was carried is the value of the expression. -/
theorem Executes.takeResult {m : ConstructM Unit} {e : EvalM V σ V} {fs : List Function}
    {k : Names} (h : Executes S known fs Γ (some k) true m (carried e))
    (hk : ∀ name, name ∈ known ↔ name ∈ k) :
    Simulates S known fs Γ (m >>= fun _ => takeResult) e Reading.value := by
  intro c id c₂ hr hb hm
  obtain ⟨u, c₁, hm, htake⟩ := bind_eq_ok.mp hm
  obtain ⟨hB, -, hready, hf⟩ := h c u c₁ hr hb hm
  have hr₁ := (hready k rfl).congr hk
  obtain ⟨id', hid⟩ := Option.isSome_iff_exists.mp hr₁.result
  rw [Construction.takeResult, envGet?_bind, hid] at htake
  obtain ⟨_, t, hmod, hpure⟩ := bind_eq_ok.mp htake
  obtain rfl := modifyFrame_eq_ok.mp hmod
  obtain ⟨rfl, rfl⟩ := pure_eq_ok.mp hpure
  have herase : ∀ x, x ≠ .result → (c₁.frame.env.erase .result).get? x = c₁.frame.env.get? x := by
    intro x hx
    rw [get?_erase, if_neg hx]
  refine ⟨⟨hB.toAdds, hB.grown, hB.moved, hB.valid, hB.topLevel⟩, ?_, ?_, ?_⟩
  · refine ⟨hr₁.topLevel, hr₁.running, hr₁.valid, ?_, ?_, hr₁.outside, ?_, ?_⟩
    · intro x i hx
      change (c₁.frame.env.erase .result).get? x = some i at hx
      rw [get?_erase] at hx
      split at hx
      · cases hx
      · exact hr₁.bound x i hx
    · intro name
      change ((c₁.frame.env.erase .result).get? _).isSome ↔ _
      rw [herase _ (by simp)]
      exact hr₁.scope name
    · intro ht
      change ((c₁.frame.env.erase .result).get? _).isSome
      rw [herase _ (by simp)]
      exact hr₁.completion ht
    · change ((c₁.frame.env.erase .result).get? _).isSome = false
      rw [get?_erase, if_pos rfl]
      rfl
  · refine ⟨⟨S.answerer.undefined, trivial⟩, fun b _ p hp => ?_⟩
    obtain rfl := List.mem_singleton.mp hp
    exact hr₁.bound _ _ hid
  · intro functions G O hw s ℓ hs hΓ
    have hw₁ : Within functions fs c c₁ G O := ⟨hw.numbered, hw.apart, hw.old, hw.finished⟩
    obtain ⟨-, s', hl, (hs' : Matches S c₁ s' (e.run ℓ).2), hkept, hcar⟩ :=
      hf functions G O hw₁ s ℓ hs hΓ
    refine ⟨s', hl, ⟨?_, ?_, hs'.world⟩, hkept, trivial, fun p hp => ?_⟩
    · intro name
      rw [← hs'.vars name]
      change valueIn _ (c₁.frame.env.erase .result) _ _ = _
      rw [valueIn, herase _ (by simp)]
      rfl
    · intro ht
      rw [← hs'.completion ht]
      change valueIn _ (c₁.frame.env.erase .result) _ _ = _
      rw [valueIn, herase _ (by simp)]
      rfl
    · obtain rfl := List.mem_singleton.mp hp
      have hval := hcar _ rfl
      rw [valueIn, hid] at hval
      exact hval

/-- An expression with two arms simulates the choice between them. -/
theorem simulates_choice (order : Bool) {fs₁ fs₂ : List Function} {test : InstrId} {v : V}
    {first second : ConstructM InstrId} {e₁ e₂ : EvalM V σ V} (hv : (test, v) ∈ Γ)
    (h₁ : Simulates S known fs₁ Γ first e₁ Reading.value)
    (h₂ : Simulates S known fs₂ Γ second e₂ Reading.value) :
    Simulates S known (fs₁ ++ fs₂) Γ
      (fork test order (first >>= envInsert .result) (second >>= envInsert .result) >>=
        fun _ => takeResult)
      (do if (← S.truth v) = order then e₁ else e₂) Reading.value := by
  have hfork : Executes S known (fs₁ ++ fs₂) Γ (some (known ++ known)) true
      (fork test order (first >>= envInsert .result) (second >>= envInsert .result))
      (do if (← S.truth v) = order then carried e₁ else carried e₂) :=
    executes_fork order hv h₁.resultArm h₂.resultArm
  have he : (do if (← S.truth v) = order then carried e₁ else carried e₂) =
      carried (do if (← S.truth v) = order then e₁ else e₂ : EvalM V σ V) := by
    simp only [carried, bind_assoc]
    congr 1
    funext holds
    split <;> rfl
  rw [he] at hfork
  exact hfork.takeResult (by simp)

end

end ScriptEngine.Meaning
