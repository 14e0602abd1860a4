import ScriptEngine.Construction
import ScriptEngine.Proofs.Meaning.Evaluation
import ScriptEngine.Proofs.Meaning.Growth
import ScriptEngine.Proofs.State

/-!
Where arms join. Every arm passes the values of its variables to the parameters of the joining
block; after the join, a variable has the value that it had in the arm that execution came from.
-/

namespace ScriptEngine.Construction

open State Meaning

/-- The graph of the function under construction. -/
abbrev graph (c : Construction) : Graph := c.frame.builder.graph

/-- The block that grows. -/
abbrev here (c : Construction) : BlockId := c.frame.builder.current

/-- The same construction with another graph. -/
def withGraph (c : Construction) (g : Graph) : Construction :=
  { c with frame.builder.graph := g }

@[simp] theorem graph_withGraph (c : Construction) (g : Graph) : (c.withGraph g).graph = g := rfl

@[simp] theorem withGraph_withGraph (c : Construction) (g g' : Graph) :
    (c.withGraph g).withGraph g' = c.withGraph g' := rfl

/-! ### Runs of single steps -/

variable {c c' : Construction}

theorem build_eq_ok {α : Type} {step : BuildM α} {a : α} :
    build step c = .ok a c' ↔
      ∃ b, step c.frame.builder = .ok a b ∧ c' = { c with frame.builder := b } := by
  unfold build EStateM.run
  cases h : step c.frame.builder with
  | ok a' b => simp [eq_comm]
  | error e b => simp

theorem onGraph_eq_ok {α : Type} {step : Graph → Except GraphError (α × Graph)} {a : α}
    {b b' : Builder} :
    Builder.onGraph step b = .ok a b' ↔
      ∃ g, step b.graph = .ok (a, g) ∧ b' = { b with graph := g } := by
  unfold Builder.onGraph
  cases h : step b.graph with
  | ok r => obtain ⟨a', g⟩ := r; simp [eq_comm, and_assoc]
  | error e => simp

theorem build_appendTo_eq_ok {b : BlockId} {op : Op} {ins : List Input} {id : InstrId}
    (h : build (Builder.appendTo b op ins) c = .ok id c') :
    b.index < c.graph.blocks.size ∧ id = ⟨c.graph.instrs.size⟩ ∧
      c' = c.withGraph (appended c.graph b op ins) := by
  obtain ⟨bd, hb, rfl⟩ := build_eq_ok.mp h
  obtain ⟨g, hg, rfl⟩ := onGraph_eq_ok.mp hb
  obtain ⟨hlt, hr⟩ := append_eq_ok hg
  cases hr
  exact ⟨hlt, rfl, rfl⟩

theorem build_newBlock_eq_ok {b : BlockId} (h : build Builder.newBlock c = .ok b c') :
    b = ⟨c.graph.blocks.size⟩ ∧ c' = c.withGraph c.graph.addBlock.2 := by
  obtain ⟨bd, hb, rfl⟩ := build_eq_ok.mp h
  obtain ⟨g, hg, rfl⟩ := onGraph_eq_ok.mp hb
  cases hg
  exact ⟨rfl, rfl⟩

theorem build_setSuccessors_eq_ok {b : BlockId} {next : List BlockId} {u : Unit}
    (h : build (Builder.setSuccessors b next) c = .ok u c') :
    b.index < c.graph.blocks.size ∧ c' = c.withGraph { c.graph with
      blocks := c.graph.blocks.modify b.index ({ · with successors := next }) } := by
  obtain ⟨bd, hb, rfl⟩ := build_eq_ok.mp h
  obtain ⟨g, hg, rfl⟩ := onGraph_eq_ok.mp hb
  cases hs : c.graph.setSuccessors b next with
  | error e => simp only [hs] at hg; cases hg
  | ok g' =>
    simp only [hs] at hg
    cases hg
    obtain ⟨hlt, hr⟩ := setSuccessors_eq_ok hs
    exact ⟨hlt, by rw [hr]; rfl⟩

theorem modifyFrame_eq_ok {f : Frame → Frame} {u : Unit} :
    modifyFrame f c = .ok u c' ↔ { c with frame := f c.frame } = c' := modify_eq_ok

theorem resume_eq_ok {b : BlockId} {env : Env} {u : Unit} (h : resume b env c = .ok u c') :
    c' = { c with frame := { c.frame with
      builder := { c.frame.builder with current := b }, env, done := false } } := by
  obtain ⟨_, t, h₁, h₂⟩ := bind_eq_ok.mp h
  obtain ⟨bd, hb, rfl⟩ := build_eq_ok.mp h₁
  have hb := modify_eq_ok.mp hb
  subst hb
  exact (modifyFrame_eq_ok.mp h₂).symm

end ScriptEngine.Construction

namespace ScriptEngine.Meaning

open State Construction

/-! ### What an arm passes -/

section

variable {V σ : Type} (A : Answerer V σ)

/-- Value of a variable in an environment; one that is not there is `undefined`. -/
def valueIn (env : Env) (regs : InstrId → V) (x : Variable) : V :=
  match env.get? x with
  | some id => regs id
  | none => A.undefined

/-- Registers below a number, and what was pushed, are as before. -/
structure Kept (n : Nat) (s s' : Activity V σ) : Prop where
  regs : ∀ id : InstrId, id.index < n → s'.regs id = s.regs id
  pushed : s'.pushed = s.pushed

theorem Kept.refl (n : Nat) (s : Activity V σ) : Kept n s s := ⟨fun _ _ => rfl, rfl⟩

theorem Kept.trans {n m : Nat} {s s₁ s₂ : Activity V σ} (h₁ : Kept n s s₁) (h₂ : Kept m s₁ s₂)
    (hle : n ≤ m) : Kept n s s₂ :=
  ⟨fun id hid => (h₂.regs id (hid.trans_le hle)).trans (h₁.regs id hid),
    h₂.pushed.trans h₁.pushed⟩

theorem Kept.setReg {n : Nat} {s : Activity V σ} {id : InstrId} (v : V) (h : n ≤ id.index) :
    Kept n s (s.setReg id v) := by
  refine ⟨fun i hi => ?_, rfl⟩
  have hne : i ≠ id := by rintro rfl; omega
  exact if_neg hne

end

/-- Instructions of `g` are instructions of `G`. -/
def SameInstrs (g G : Graph) : Prop := ∀ i < g.instrs.size, G.instrs[i]? = g.instrs[i]?

/-- What was appended to an arm since `g₀`, in `g`: it passes the value of a variable to each of the
given parameters, makes the registers in `blank` undefined, and changes nothing else. -/
def Passes (g₀ g : Graph) (arm : Arm) (params : List (InstrId × Variable))
    (blank : List InstrId) : Prop :=
  ∃ B code, g₀.blocks[arm.block.index]? = some B ∧
    g.blocks[arm.block.index]? = some { B with instrs := B.instrs ++ code } ∧
    ∀ {V σ : Type} (A : Answerer V σ) functions inputs G (s : Activity V σ), SameInstrs g G →
      ∃ s', runBody A functions G inputs code s = some (.fell, s') ∧
        Kept g₀.instrs.size s s' ∧ s'.world = s.world ∧
        (∀ p ∈ params, s'.passed.lookup p.1 = some (valueIn A arm.env s.regs p.2)) ∧
        ∀ id ∈ blank, s'.regs id = A.undefined

theorem passes_nil {g : Graph} {arm : Arm} (h : arm.block.index < g.blocks.size) :
    Passes g g arm [] [] := by
  have hB := Array.getElem?_eq_getElem h
  refine ⟨g.blocks[arm.block.index], [], hB, by rw [List.append_nil]; exact hB, ?_⟩
  intro V σ A functions inputs G s _
  exact ⟨s, rfl, Kept.refl _ _, rfl, by simp, by simp⟩

/-- Growth elsewhere does not matter to an arm. -/
theorem Passes.mono {g₀ g g' : Graph} {arm : Arm} {params : List (InstrId × Variable)}
    {blank : List InstrId} {S : Nat → Prop} (h : Passes g₀ g arm params blank)
    (he : Extends g g' S) (hb : g'.blocks[arm.block.index]? = g.blocks[arm.block.index]?) :
    Passes g₀ g' arm params blank := by
  obtain ⟨B, code, h₀, h₁, hrun⟩ := h
  refine ⟨B, code, h₀, hb.trans h₁, ?_⟩
  intro V σ A functions inputs G s hG
  refine hrun A functions inputs G s fun i hlt => ?_
  rw [hG i (hlt.trans_le he.instrs_le), he.instrs i hlt]

/-- Appending an instruction to an arm that does its work after what was there. -/
theorem Passes.append {g₀ g : Graph} {arm : Arm} {params params' : List (InstrId × Variable)}
    {blank blank' : List InstrId} {op : Op} {ins : List Input} (h : Passes g₀ g arm params blank)
    (hret : op ≠ .prim .ret)
    (hstep : ∀ {V σ : Type} (A : Answerer V σ) functions inputs (s s' : Activity V σ),
      Kept g₀.instrs.size s s' → s'.world = s.world →
      (∀ p ∈ params, s'.passed.lookup p.1 = some (valueIn A arm.env s.regs p.2)) →
      (∀ id ∈ blank, s'.regs id = A.undefined) →
      ∃ s₁, perform A functions inputs s' ⟨g.instrs.size⟩ op ins = some s₁ ∧
        Kept g₀.instrs.size s s₁ ∧ s₁.world = s.world ∧
        (∀ p ∈ params', s₁.passed.lookup p.1 = some (valueIn A arm.env s.regs p.2)) ∧
        ∀ id ∈ blank', s₁.regs id = A.undefined) :
    Passes g₀ (appended g arm.block op ins) arm params' blank' := by
  obtain ⟨B, code, h₀, h₁, hrun⟩ := h
  refine ⟨B, code ++ [⟨g.instrs.size⟩], h₀, ?_, ?_⟩
  · rw [appended_block g arm.block op ins h₁]
    simp
  · intro V σ A functions inputs G s hG
    have hsame : SameInstrs g G := by
      intro i hi
      rw [hG i (by simp; omega), (extends_appended g arm.block op ins).instrs i hi]
    obtain ⟨s', hs', hk, hw, hp, hb⟩ := hrun A functions inputs G s hsame
    obtain ⟨s₁, hs₁, hk₁, hw₁, hp₁, hb₁⟩ := hstep A functions inputs s s' hk hw hp hb
    refine ⟨s₁, ?_, hk₁, hw₁, hp₁, hb₁⟩
    have hi := hG g.instrs.size (by simp)
    rw [appended_instr] at hi
    rw [runBody_append, hs']
    simp only [Option.bind_some]
    rw [runBody_cons A functions G inputs ⟨g.instrs.size⟩ [] s' hi hret, hs₁]
    rfl

/-- Appending the pass of one more value, given that its register holds it. -/
theorem Passes.toPhi {g₀ g : Graph} {arm : Arm} {params : List (InstrId × Variable)}
    {blank : List InstrId} {phi value : InstrId} {x : Variable} (h : Passes g₀ g arm params blank)
    (hfresh : ∀ p ∈ params, p.1 ≠ phi)
    (hvalue : ∀ {V σ : Type} (A : Answerer V σ) (s s' : Activity V σ), Kept g₀.instrs.size s s' →
      (∀ id ∈ blank, s'.regs id = A.undefined) → s'.regs value = valueIn A arm.env s.regs x) :
    Passes g₀ (appended g arm.block (.prim .toPhi) [.value phi, .value value]) arm
      (params ++ [(phi, x)]) [] := by
  apply h.append (by simp)
  intro V σ A functions inputs s s' hk hw hl hb
  refine ⟨_, rfl, ⟨hk.regs, hk.pushed⟩, hw, ?_, by simp⟩
  intro p hmem
  rcases List.mem_append.mp hmem with hmem | hmem
  · have hne : (p.1 == phi) = false := by simpa using hfresh p hmem
    rw [List.lookup_cons, hne]
    exact hl p hmem
  · rw [List.mem_singleton] at hmem
    subst hmem
    simp [operand, hvalue A s s' hk hb]

/-- The steps that pass a value do just that. -/
theorem passes_passFrom {g₀ : Graph} {c c' : Construction} {arm : Arm} {phi : InstrId}
    {x : Variable} {params : List (InstrId × Variable)} {u : Unit}
    (h : passFrom phi x arm c = .ok u c') (hp : Passes g₀ c.graph arm params [])
    (hle : g₀.instrs.size ≤ c.graph.instrs.size)
    (hbound : ∀ id, arm.env.get? x = some id → id.index < g₀.instrs.size)
    (hfresh : ∀ p ∈ params, p.1 ≠ phi) :
    Passes g₀ c'.graph arm (params ++ [(phi, x)]) [] ∧
      Extends c.graph c'.graph (· = arm.block.index) ∧
      c' = c.withGraph c'.graph ∧
      c'.graph.blocks.size = c.graph.blocks.size := by
  unfold passFrom at h
  cases hx : arm.env.get? x with
  | some id =>
    rw [hx] at h
    simp only [pure_bind] at h
    obtain ⟨_, hpass⟩ := discard_eq_ok.mp h
    obtain ⟨_, _, rfl⟩ := build_appendTo_eq_ok hpass
    refine ⟨hp.toPhi hfresh ?_, extends_appended .., rfl, appended_blocks_size ..⟩
    intro V σ A s s' hk _
    rw [hk.regs id (hbound id hx), valueIn, hx]
  | none =>
    rw [hx] at h
    obtain ⟨value, t, hlit, hrest⟩ := bind_eq_ok.mp h
    obtain ⟨_, hpass⟩ := discard_eq_ok.mp hrest
    obtain ⟨_, rfl, rfl⟩ := build_appendTo_eq_ok hlit
    obtain ⟨_, _, rfl⟩ := build_appendTo_eq_ok hpass
    have hblank : Passes g₀ (appended c.graph arm.block (.prim .literal) [.const .undefined]) arm
        params [⟨c.graph.instrs.size⟩] := by
      apply hp.append (by simp)
      intro V σ A functions inputs s s' hk hw hl _
      refine ⟨_, rfl, hk.trans (Kept.setReg _ hle) le_rfl, hw, hl, ?_⟩
      simp [Activity.setReg, Answerer.undefined]
    refine ⟨hblank.toPhi hfresh ?_, ?_, rfl, ?_⟩
    · intro V σ A s s' _ hb
      rw [hb _ (List.mem_singleton_self _), valueIn, hx]
    · exact ((extends_appended ..).trans (extends_appended ..)).mono (by simp)
    · exact (appended_blocks_size ..).trans (appended_blocks_size ..)

/-- Every arm passes one more value; the arms have different blocks, so they do not interfere. -/
theorem passes_forM {g₀ : Graph} {phi : InstrId} {x : Variable}
    {params : List (InstrId × Variable)} (hfresh : ∀ p ∈ params, p.1 ≠ phi) :
    ∀ {arms : List Arm} {c c' : Construction} {u : Unit},
      (arms.forM (passFrom phi x)) c = .ok u c' →
      (arms.map (·.block.index)).Nodup → g₀.instrs.size ≤ c.graph.instrs.size →
      (∀ a ∈ arms, Passes g₀ c.graph a params []) →
      (∀ a ∈ arms, ∀ id, a.env.get? x = some id → id.index < g₀.instrs.size) →
      (∀ a ∈ arms, Passes g₀ c'.graph a (params ++ [(phi, x)]) []) ∧
        Extends c.graph c'.graph (fun i => ∃ a ∈ arms, i = a.block.index) ∧
        c' = c.withGraph c'.graph ∧
        c'.graph.blocks.size = c.graph.blocks.size
  | [], c, c', u, h, _, _, _, _ => by
    obtain ⟨_, rfl⟩ := pure_eq_ok.mp h
    exact ⟨by simp, Extends.refl _ _, rfl, rfl⟩
  | a :: rest, c, c', u, h, hnodup, hle, hp, hbound => by
    obtain ⟨t, ha, hrest⟩ := forM_cons_eq_ok.mp h
    rw [List.map_cons, List.nodup_cons] at hnodup
    have hother : ∀ a' ∈ rest, a'.block.index ≠ a.block.index := fun a' ha' he =>
      hnodup.1 (he ▸ List.mem_map_of_mem ha')
    obtain ⟨hpa, hea, hta, hsa⟩ := passes_passFrom ha (hp a List.mem_cons_self) hle
      (hbound a List.mem_cons_self) hfresh
    have hpt : ∀ a' ∈ rest, Passes g₀ t.graph a' params [] := by
      intro a' ha'
      have hold := hp a' (List.mem_cons_of_mem _ ha')
      obtain ⟨_, _, _, hb, _⟩ := hold
      exact (hp a' (List.mem_cons_of_mem _ ha')).mono hea
        (hea.closed _ (Array.getElem?_eq_some_iff.mp hb).1 (hother a' ha'))
    obtain ⟨hpr, her, htr, hsr⟩ := passes_forM hfresh hrest hnodup.2 (hle.trans hea.instrs_le) hpt
      fun a' ha' => hbound a' (List.mem_cons_of_mem _ ha')
    refine ⟨?_, ?_, ?_, hsr.trans hsa⟩
    · intro a' ha'
      rcases List.mem_cons.mp ha' with rfl | ha'
      · have hpa' := hpa
        obtain ⟨_, _, _, hb, _⟩ := hpa'
        refine hpa.mono her (her.closed _ (Array.getElem?_eq_some_iff.mp hb).1 ?_)
        rintro ⟨a'', ha'', he⟩
        exact hother a'' ha'' he.symm
      · exact hpr a' ha'
    · refine (hea.trans her).mono ?_
      rintro i _ (hi | ⟨a', ha', hi⟩)
      · exact ⟨a, List.mem_cons_self, hi⟩
      · exact ⟨a', List.mem_cons_of_mem _ ha', hi⟩
    · rw [htr, hta]
      simp

/-! ### The joining block -/

/-- A join under construction: the parameters of its block, and what the arms pass to them. -/
structure Merging (g₀ g : Graph) (block : Nat) (arms : List Arm)
    (params : List (InstrId × Variable)) : Prop where
  grown : Extends g₀ g fun i => (∃ a ∈ arms, i = a.block.index) ∨ i = block
  size : g.blocks.size = g₀.blocks.size
  block : g.blocks[block]? = some { instrs := params.map (·.1) }
  fresh : ∀ p ∈ params, g₀.instrs.size ≤ p.1.index ∧ p.1.index < g.instrs.size
  phi : ∀ p ∈ params, ∃ i, g.instrs[p.1.index]? = some i ∧ i.op = .prim .phi ∧ i.inputs = []
  arms : ∀ a ∈ arms, Passes g₀ g a params []

theorem get?_of_common? {arms : List Arm} {x : Variable} {id : InstrId}
    (h : common? arms x = some id) : ∀ a ∈ arms, a.env.get? x = some id := by
  cases arms with
  | nil => simp
  | cons a rest =>
    unfold common? at h
    rw [List.map_cons] at h
    cases ha : a.env.get? x with
    | none => rw [ha] at h; cases h
    | some first =>
      rw [ha] at h
      simp only at h
      split at h
      · rename_i hall
        cases h
        intro a' ha'
        rcases List.mem_cons.mp ha' with rfl | ha'
        · exact ha
        · simpa using List.all_eq_true.mp hall _ (List.mem_map_of_mem ha')
      · cases h

section

variable {g₀ : Graph} {j : BlockId} {arms : List Arm}

/-- A variable is merged: it keeps its one value, or gets a parameter. -/
theorem merging_merge {c c' : Construction} {x : Variable} {r : Variable × InstrId}
    {params : List (InstrId × Variable)} (h : merge j arms x c = .ok r c')
    (hm : Merging g₀ c.graph j.index arms params)
    (hnodup : (arms.map (·.block.index)).Nodup) (hj : ∀ a ∈ arms, a.block.index ≠ j.index)
    (hbound : ∀ a ∈ arms, ∀ x id, a.env.get? x = some id → id.index < g₀.instrs.size) :
    ∃ params', Merging g₀ c'.graph j.index arms params' ∧ params ⊆ params' ∧ r.1 = x ∧
      ((∀ a ∈ arms, a.env.get? x = some r.2) ∨ (r.2, x) ∈ params') ∧
      c' = c.withGraph c'.graph := by
  unfold merge at h
  cases hc : common? arms x with
  | some id =>
    rw [hc] at h
    obtain ⟨rfl, rfl⟩ := pure_eq_ok.mp h
    exact ⟨params, hm, fun _ h => h, rfl, .inl (get?_of_common? hc), rfl⟩
  | none =>
    rw [hc] at h
    obtain ⟨phi, t, hphi, hrest⟩ := bind_eq_ok.mp h
    obtain ⟨_, t', hpass, hpure⟩ := bind_eq_ok.mp hrest
    obtain ⟨rfl, rfl⟩ := pure_eq_ok.mp hpure
    obtain ⟨_, rfl, rfl⟩ := build_appendTo_eq_ok hphi
    -- The new parameter has a number that no earlier one has.
    have hne : ∀ p ∈ params, p.1 ≠ ⟨c.graph.instrs.size⟩ := by
      rintro p hp rfl'
      have := (hm.fresh p hp).2
      rw [rfl'] at this
      exact lt_irrefl _ this
    have hext := extends_appended c.graph j (.prim .phi) []
    have harms : ∀ a ∈ arms, Passes g₀ (appended c.graph j (.prim .phi) []) a params [] :=
      fun a ha => (hm.arms a ha).mono hext (appended_other _ _ _ _ (hj a ha))
    obtain ⟨hp, he, ht, hs⟩ := passes_forM hne hpass hnodup
      (hm.grown.instrs_le.trans hext.instrs_le) harms fun a ha id => hbound a ha x id
    rw [graph_withGraph] at he hs
    rw [withGraph_withGraph] at ht
    refine ⟨params ++ [(⟨c.graph.instrs.size⟩, x)], ⟨?_, ?_, ?_, ?_, ?_, hp⟩,
      List.subset_append_left _ _, rfl, .inr (by simp), ht⟩
    · refine ((hm.grown.trans hext).trans he).mono ?_
      rintro i _ ((h | h) | h)
      · exact h
      · exact .inr h
      · exact .inl h
    · exact hs.trans ((appended_blocks_size ..).trans hm.size)
    · have hlt := (Array.getElem?_eq_some_iff.mp hm.block).1
      have hcl := he.closed j.index (by simpa using hlt) fun ⟨a, ha, hi⟩ => hj a ha hi.symm
      rw [hcl, appended_block _ _ _ _ hm.block]
      simp
    · intro p hp'
      have hle := he.instrs_le
      rw [appended_instrs_size] at hle
      rcases List.mem_append.mp hp' with hp' | hp'
      · have := hm.fresh p hp'
        exact ⟨this.1, by omega⟩
      · rw [List.mem_singleton] at hp'
        subst hp'
        have := hm.grown.instrs_le
        exact ⟨this, by change c.graph.instrs.size < _; omega⟩
    · intro p hp'
      rcases List.mem_append.mp hp' with hp' | hp'
      · have hlt := (hm.fresh p hp').2
        rw [he.instrs _ (by simp; omega), hext.instrs _ hlt]
        exact hm.phi p hp'
      · rw [List.mem_singleton] at hp'
        subst hp'
        rw [he.instrs _ (by simp), appended_instr]
        exact ⟨_, rfl, rfl, rfl⟩

theorem merging_mapM (hnodup : (arms.map (·.block.index)).Nodup)
    (hj : ∀ a ∈ arms, a.block.index ≠ j.index)
    (hbound : ∀ a ∈ arms, ∀ x id, a.env.get? x = some id → id.index < g₀.instrs.size) :
    ∀ {xs : List Variable} {c c' : Construction} {env : Env} {params : List (InstrId × Variable)},
      (xs.mapM (merge j arms)) c = .ok env c' → Merging g₀ c.graph j.index arms params →
      ∃ params', Merging g₀ c'.graph j.index arms params' ∧ params ⊆ params' ∧
        env.domain = xs ∧
        (∀ r ∈ env, (∀ a ∈ arms, a.env.get? r.1 = some r.2) ∨ (r.2, r.1) ∈ params') ∧
        c' = c.withGraph c'.graph
  | [], c, c', env, params, h, hm => by
    rw [List.mapM_nil] at h
    obtain ⟨rfl, rfl⟩ := pure_eq_ok.mp h
    exact ⟨params, hm, fun _ h => h, rfl, by simp, rfl⟩
  | x :: xs, c, c', env, params, h, hm => by
    obtain ⟨r, t, rest, hr, hrest, rfl⟩ := mapM_cons_eq_ok.mp h
    obtain ⟨params₁, hm₁, hsub₁, hx, hval, ht⟩ := merging_merge hr hm hnodup hj hbound
    obtain ⟨params₂, hm₂, hsub₂, hvars, hvals, ht'⟩ := merging_mapM hnodup hj hbound hrest hm₁
    refine ⟨params₂, hm₂, fun _ h => hsub₂ (hsub₁ h), ?_, ?_, ?_⟩
    · simp only [Env.domain, List.map_cons] at hvars ⊢
      rw [hx, hvars]
    · intro r' hr'
      rcases List.mem_cons.mp hr' with rfl | hr'
      · rw [hx]
        exact hval.imp_right fun h => hsub₂ h
      · exact hvals r' hr'
    · rw [ht', ht]
      simp

end

/-- The parameters of a block take what was passed. -/
theorem runBody_phis {V σ : Type} (A : Answerer V σ) (functions : Nat → Syntax.Function)
    (G : Graph) (inputs : Inputs V) :
    ∀ (ids : List InstrId) (s : Activity V σ),
      (∀ id ∈ ids, ∃ i, G.instrs[id.index]? = some i ∧ i.op = .prim .phi ∧ i.inputs = []) →
      (∀ id ∈ ids, (s.received.lookup id).isSome) →
      ∃ s', runBody A functions G inputs ids s = some (.fell, s') ∧ s'.world = s.world ∧
        s'.pushed = s.pushed ∧ (∀ id ∉ ids, s'.regs id = s.regs id) ∧
        ∀ id ∈ ids, s.received.lookup id = some (s'.regs id)
  | [], s, _, _ => ⟨s, rfl, rfl, rfl, fun _ _ => rfl, by simp⟩
  | id :: rest, s, hphi, hsome => by
    obtain ⟨i, hi, hop, hins⟩ := hphi id List.mem_cons_self
    obtain ⟨v, hv⟩ := Option.isSome_iff_exists.mp (hsome id List.mem_cons_self)
    obtain ⟨s', hrun, hw, hp, hother, hset⟩ := runBody_phis A functions G inputs rest
      (s.setReg id v) (fun id' h => hphi id' (List.mem_cons_of_mem _ h))
      fun id' h => hsome id' (List.mem_cons_of_mem _ h)
    refine ⟨s', ?_, hw, hp, ?_, ?_⟩
    · rw [runBody_cons A functions G inputs id rest s hi (by simp [hop]), hop, hins]
      simpa [perform, hv] using hrun
    · intro id' h
      rw [List.mem_cons, not_or] at h
      rw [hother id' h.2]
      exact if_neg h.1
    · intro id' h
      by_cases hr : id' ∈ rest
      · exact hset id' hr
      · obtain rfl : id' = id := by simpa [hr] using h
        rw [hother id' hr, hv]
        simp [Activity.setReg]

/-- Number of instructions in a block. -/
def lengthOf (g : Graph) (b : BlockId) : Nat :=
  match g.blocks[b.index]? with
  | some B => B.instrs.length
  | none => 0

/-- What a join does. -/
structure Joined (c c' : Construction) (live : List Arm) : Prop where
  graphs : c'.graphs = c.graphs
  topLevel : c'.frame.topLevel = c.frame.topLevel
  running : c'.frame.done = false
  here : c'.here = ⟨c.graph.blocks.size⟩
  size : c'.graph.blocks.size = c.graph.blocks.size + 1
  grown : Extends c.graph c'.graph fun i => ∃ a ∈ live, i = a.block.index
  env : ∀ x, (c'.frame.env.get? x).isSome ↔ ∃ a ∈ live, (a.env.get? x).isSome
  bound : ∀ x id, c'.frame.env.get? x = some id → id.index < c'.graph.instrs.size
  /-- From the end of an arm, execution comes to the end of the new block. -/
  leads : ∀ a ∈ live, ∀ {V σ : Type} (A : Answerer V σ) functions inputs G (O : Nat → Prop)
    (s : Activity V σ), Finished c'.graph G O → ¬ O a.block.index →
    ∃ s', Leads A functions G inputs a.block (lengthOf c.graph a.block) s c'.here
        (lengthOf c'.graph c'.here) s' ∧
      s'.world = s.world ∧ Kept c.graph.instrs.size s s' ∧
      ∀ x, valueIn A c'.frame.env s'.regs x = valueIn A a.env s.regs x

theorem setSuccessors_forM {next : List BlockId} : ∀ {arms : List Arm} {c c' : Construction}
    {u : Unit}, (arms.forM fun arm => build (Builder.setSuccessors arm.block next)) c = .ok u c' →
      c' = c.withGraph c'.graph ∧ c'.graph.instrs = c.graph.instrs ∧
      c'.graph.blocks.size = c.graph.blocks.size ∧
      ∀ i, c'.graph.blocks[i]? = (c.graph.blocks[i]?).map fun B =>
        if i ∈ arms.map (·.block.index) then { B with successors := next } else B
  | [], c, c', u, h => by
    obtain ⟨_, rfl⟩ := pure_eq_ok.mp h
    exact ⟨rfl, rfl, rfl, by simp⟩
  | a :: rest, c, c', u, h => by
    obtain ⟨t, ha, hrest⟩ := forM_cons_eq_ok.mp h
    obtain ⟨_, rfl⟩ := build_setSuccessors_eq_ok ha
    obtain ⟨hc, hi, hs, hb⟩ := setSuccessors_forM hrest
    refine ⟨by rw [hc]; simp, hi, by rw [hs]; simp, fun i => ?_⟩
    rw [hb i]
    simp only [graph_withGraph, Array.getElem?_modify, List.map_cons, List.mem_cons]
    cases c.graph.blocks[i]? with
    | none => split <;> simp
    | some B => grind

theorem get?_cons (y x : Variable) (id : InstrId) (rest : Env) :
    Env.get? ((y, id) :: rest) x = if x = y then some id else rest.get? x := by
  unfold Env.get?
  rw [List.lookup_cons]
  by_cases h : x = y
  · simp [h]
  · have hb : (x == y) = false := by simpa using h
    rw [hb, if_neg h]

theorem get?_isSome_iff (env : Env) (x : Variable) : (env.get? x).isSome ↔ x ∈ env.domain := by
  induction env with
  | nil => simp [Env.get?, Env.domain]
  | cons p rest ih =>
    rw [get?_cons]
    simp only [Env.domain, List.map_cons, List.mem_cons] at ih ⊢
    by_cases h : x = p.1
    · simp [h]
    · simpa [h] using ih

theorem mem_of_get? {env : Env} {x : Variable} {id : InstrId} (h : env.get? x = some id) :
    (x, id) ∈ env := by
  induction env with
  | nil => simp [Env.get?] at h
  | cons p rest ih =>
    rw [get?_cons] at h
    split at h
    · rename_i hx
      cases h
      rw [hx]
      exact List.mem_cons_self
    · exact List.mem_cons_of_mem _ (ih h)

theorem mem_eraseReps {α : Type} [DecidableEq α] {x : α} {l : List α} :
    x ∈ l.eraseReps ↔ x ∈ l := by
  have loop : ∀ (l : List α) (a : α) (acc : List α),
      x ∈ List.eraseRepsBy.loop (· == ·) a l acc ↔ x ∈ acc ∨ x = a ∨ x ∈ l := by
    intro l
    induction l with
    | nil => intro a acc; simp [List.eraseRepsBy.loop, or_comm]
    | cons b l ih =>
      intro a acc
      rw [List.eraseRepsBy.loop]
      by_cases h : a = b
      · subst h
        simp [ih]
      · have hb : (a == b) = false := by simpa using h
        simp only [hb, ih, List.mem_cons]
        tauto
  cases l with
  | nil => rfl
  | cons a l =>
    change x ∈ List.eraseRepsBy.loop (· == ·) a l [] ↔ _
    rw [loop]
    simp

theorem mem_insertOrdered {x y : Variable} {l : List Variable} :
    y ∈ x.insertOrdered l ↔ y = x ∨ y ∈ l := by
  induction l with
  | nil => simp [Variable.insertOrdered]
  | cons z rest ih =>
    unfold Variable.insertOrdered
    split
    · simp only [List.mem_cons, ih]
      tauto
    · simp only [List.mem_cons]

theorem mem_knownVariables {arms : List Arm} {x : Variable} :
    x ∈ knownVariables arms ↔ ∃ a ∈ arms, (a.env.get? x).isSome := by
  have hordered : ∀ l : List Variable, x ∈ l.foldr Variable.insertOrdered [] ↔ x ∈ l := by
    intro l
    induction l with
    | nil => simp
    | cons y rest ih => rw [List.foldr_cons, mem_insertOrdered, ih, List.mem_cons]
  unfold knownVariables
  rw [mem_eraseReps, hordered, List.mem_flatMap]
  simp only [get?_isSome_iff]

/-- The start of a join: a new block, and edges to it from all arms. -/
theorem extends_of_edges {g g₂ : Graph} {arms : List Arm} {next : List BlockId}
    (hi : g₂.instrs = g.instrs) (hs : g₂.blocks.size = g.blocks.size + 1)
    (hb : ∀ i, g₂.blocks[i]? = (g.addBlock.2.blocks[i]?).map fun B =>
      if i ∈ arms.map (·.block.index) then { B with successors := next } else B) :
    Extends g g₂ fun i => ∃ a ∈ arms, i = a.block.index where
  instrs i _ := by rw [hi]
  instrs_le := by rw [hi]
  blocks_le := by omega
  closed i hlt hn := by
    have hmem : i ∉ arms.map (·.block.index) := by
      rw [List.mem_map]
      rintro ⟨a, ha, he⟩
      exact hn ⟨a, ha, he.symm⟩
    rw [hb i, (extends_addBlock g fun _ => False).closed i hlt id]
    simp [hmem]
  longer i B hB := by
    obtain ⟨B', hB', hp⟩ := (extends_addBlock g fun _ => False).longer i B hB
    rw [hb i, hB', Option.map_some]
    refine ⟨_, rfl, ?_⟩
    split <;> exact hp

/-- From the end of an arm, execution passes the values and comes to the end of the new block. -/
theorem Merging.leads {g₀ g : Graph} {j : BlockId} {arms : List Arm}
    {params : List (InstrId × Variable)} (hm : Merging g₀ g j.index arms params) {a : Arm}
    (ha : a ∈ arms) {B : Block} (hB : g₀.blocks[a.block.index]? = some B)
    (hnext : B.successors = [j]) (hlt : a.block.index < j.index)
    {V σ : Type} (A : Answerer V σ) (functions : Nat → Syntax.Function) (inputs : Inputs V)
    {G : Graph} {O : Nat → Prop} (hG : Finished g G O) (hO : ¬ O a.block.index)
    (s : Activity V σ) :
    ∃ s', Leads A functions G inputs a.block B.instrs.length s j params.length s' ∧
      s'.world = s.world ∧ Kept g₀.instrs.size s s' ∧
      ∀ p ∈ params, s'.regs p.1 = valueIn A a.env s.regs p.2 := by
  obtain ⟨B', code, hB', hcode, hrun⟩ := hm.arms a ha
  obtain rfl : B' = B := by
    rw [hB] at hB'
    cases hB'
    rfl
  obtain ⟨s₁, hs₁, hk₁, hw₁, hp₁, -⟩ := hrun A functions inputs G s hG.instrs
  have hGa : G.blocks[a.block.index]? = some { B' with instrs := B'.instrs ++ code } := by
    rw [hG.closed _ (Array.getElem?_eq_some_iff.mp hcode).1 hO, hcode]
  have lead₁ : Leads A functions G inputs a.block B'.instrs.length s a.block
      (B'.instrs ++ code).length s₁ :=
    leads_of_runBody hGa (List.append_nil _).symm hs₁
  have lead₂ : Leads A functions G inputs a.block (B'.instrs ++ code).length s₁ j 0 s₁.enter :=
    leads_of_jump hGa (by rw [hnext]; rfl) hlt
  -- The parameters stand first in the new block.
  obtain ⟨BJ, hBJ, rest, hrest⟩ := hG.longer _ _ hm.block
  have hphis : ∀ id ∈ params.map (·.1),
      ∃ i, G.instrs[id.index]? = some i ∧ i.op = .prim .phi ∧ i.inputs = [] := by
    intro id hid
    obtain ⟨p, hp, rfl⟩ := List.mem_map.mp hid
    rw [hG.instrs _ (hm.fresh p hp).2]
    exact hm.phi p hp
  obtain ⟨s₂, hs₂, hw₂, hpush₂, hother₂, hset₂⟩ := runBody_phis A functions G inputs
    (params.map (·.1)) s₁.enter hphis (by
      intro id hid
      obtain ⟨p, hp, rfl⟩ := List.mem_map.mp hid
      simp [Activity.enter, hp₁ p hp])
  have lead₃ : Leads A functions G inputs j 0 s₁.enter j params.length s₂ := by
    have hr : BJ.instrs = [] ++ params.map (·.1) ++ rest := by simpa using hrest.symm
    simpa using leads_of_runBody hBJ hr hs₂
  refine ⟨s₂, (lead₁.trans lead₂).trans lead₃, hw₂.trans hw₁, ⟨?_, hpush₂.trans hk₁.pushed⟩, ?_⟩
  · intro id hid
    rw [hother₂ id, Activity.enter]
    · exact hk₁.regs id hid
    · intro hmem
      obtain ⟨p, hp, rfl⟩ := List.mem_map.mp hmem
      have := (hm.fresh p hp).1
      omega
  · intro p hp
    have h₁ := hset₂ p.1 (List.mem_map_of_mem hp)
    have h₂ := hp₁ p hp
    rw [Activity.enter] at h₁
    rw [h₂] at h₁
    exact (Option.some.inj h₁).symm

theorem join_of_live {arms : List Arm} {c c' : Construction} {u : Unit}
    (h : join arms c = .ok u c') (hne : arms.filter (!·.done) ≠ [])
    (hnodup : ((arms.filter (!·.done)).map (·.block.index)).Nodup)
    (hvalid : ∀ a ∈ arms.filter (!·.done), a.block.index < c.graph.blocks.size)
    (hbound : ∀ a ∈ arms.filter (!·.done), ∀ x id, a.env.get? x = some id →
      id.index < c.graph.instrs.size) :
    Joined c c' (arms.filter (!·.done)) := by
  generalize hlive : arms.filter (!·.done) = live at *
  unfold join at h
  simp only [hlive] at h
  rw [if_neg (by simpa using hne)] at h
  obtain ⟨j, c₁, hj, h⟩ := bind_eq_ok.mp h
  obtain ⟨rfl, rfl⟩ := build_newBlock_eq_ok hj
  obtain ⟨_, c₂, hsucc, h⟩ := bind_eq_ok.mp h
  obtain ⟨(env : Env), c₃, hmerge, h⟩ := bind_eq_ok.mp h
  obtain ⟨hc₂, hi₂, hs₂, hb₂⟩ := setSuccessors_forM hsucc
  rw [withGraph_withGraph] at hc₂
  have hs₂ : c₂.graph.blocks.size = c.graph.blocks.size + 1 := by
    rw [hs₂]
    simp [Graph.addBlock]
  have hext : Extends c.graph c₂.graph fun i => ∃ a ∈ live, i = a.block.index :=
    extends_of_edges hi₂ hs₂ hb₂
  have hjne : ∀ a ∈ live, a.block.index ≠ c.graph.blocks.size := fun a ha => (hvalid a ha).ne
  have hstart : Merging c₂.graph c₂.graph c.graph.blocks.size live [] := by
    refine ⟨Extends.refl _ _, rfl, ?_, by simp, by simp, fun a ha => passes_nil ?_⟩
    · have hmem : c.graph.blocks.size ∉ live.map (·.block.index) := by
        rw [List.mem_map]
        rintro ⟨a, ha, he⟩
        exact hjne a ha he
      rw [hb₂]
      simp only [if_neg hmem]
      simp [Graph.addBlock]
    · exact (hvalid a ha).trans_le hext.blocks_le
  have hi₂ : c₂.graph.instrs = c.graph.instrs := hi₂
  obtain ⟨params, hm, -, hvars, hvals, hc₃⟩ := merging_mapM hnodup hjne
    (fun a ha x id hx => by rw [hi₂]; exact hbound a ha x id hx) hmerge hstart
  have hm : Merging c₂.graph c₃.graph c.graph.blocks.size live params := hm
  obtain rfl := resume_eq_ok h
  rw [hc₂, withGraph_withGraph] at hc₃
  have hold : ∀ r ∈ env, (∀ a ∈ live, a.env.get? r.1 = some r.2) →
      r.2.index < c.graph.instrs.size := by
    intro r _ hr
    obtain ⟨a, ha⟩ := List.exists_mem_of_ne_nil live hne
    exact hbound a ha _ _ (hr a ha)
  constructor
  · rw [hc₃]; rfl
  · rw [hc₃]; rfl
  · rfl
  · rfl
  · exact hm.size.trans hs₂
  · refine (hext.trans hm.grown).mono ?_
    rintro i hi (h | h | h)
    · exact h
    · exact h
    · omega
  · intro x
    rw [get?_isSome_iff, ← mem_knownVariables, ← hvars]
  · intro x id hx
    rcases hvals _ (mem_of_get? hx) with hr | hr
    · have := hold _ (mem_of_get? hx) hr
      have := (hext.trans hm.grown).instrs_le
      change id.index < c₃.graph.instrs.size
      simp only at *
      omega
    · exact (hm.fresh _ hr).2
  · intro a ha V σ A functions inputs G O s hG hO
    obtain ⟨B, hB⟩ : ∃ B, c.graph.blocks[a.block.index]? = some B :=
      ⟨_, Array.getElem?_eq_getElem (hvalid a ha)⟩
    have hB₂ : c₂.graph.blocks[a.block.index]? =
        some { B with successors := [⟨c.graph.blocks.size⟩] } := by
      rw [hb₂, graph_withGraph,
        (extends_addBlock c.graph fun _ => False).closed _ (hvalid a ha) id, hB]
      simp [List.mem_map_of_mem ha]
    have hmj : Merging c₂.graph c₃.graph (BlockId.mk c.graph.blocks.size).index live params := hm
    obtain ⟨s', hlead, hw, hk, hp⟩ :=
      hmj.leads ha hB₂ rfl (hvalid a ha) A functions inputs hG hO s
    rw [hi₂] at hk
    refine ⟨s', ?_, hw, hk, ?_⟩
    · have h₁ : lengthOf c.graph a.block = B.instrs.length := by simp [lengthOf, hB]
      have h₂ : lengthOf c₃.graph ⟨c.graph.blocks.size⟩ = params.length := by
        simp [lengthOf, hm.block]
      rw [h₁]
      exact h₂ ▸ hlead
    · intro x
      unfold valueIn
      cases hx : Env.get? env x with
      | none =>
        have hnone : a.env.get? x = none := by
          have := (get?_isSome_iff env x).not.mp (by simp [hx])
          rw [hvars, mem_knownVariables] at this
          by_contra hc
          exact this ⟨a, ha, Option.isSome_iff_ne_none.mpr hc⟩
        rw [hnone]
      | some id =>
        rcases hvals _ (mem_of_get? hx) with hr | hr
        · rw [hr a ha]
          exact hk.regs id (hold _ (mem_of_get? hx) hr)
        · exact hp _ hr

end ScriptEngine.Meaning
