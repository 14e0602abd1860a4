import ScriptEngine.Proofs.Graph.Sketch
import ScriptEngine.Proofs.Meaning.Joins

/-!
Where arms join, their blocks are finished: each of them passes one value to every parameter of the
block where they meet, and that block is open.
-/

namespace ScriptEngine.Graph

open State Construction Meaning

/-- `g'` is `g` with code at the ends of some blocks that passes values to parameters. -/
structure Spreads (g g' : Graph) (arms : List BlockId) (params : List InstrId) : Prop where
  core : g'.Core
  size : g'.blocks.size = g.blocks.size
  successors : ∀ b, g'.successors b = g.successors b
  passed : ∀ a ∈ arms, ∃ passes, g'.code a = g.code a ++ passes ∧ PassCode passes params
  others : ∀ b, b ∉ arms → g'.code b = g.code b

theorem Spreads.grows {g g' : Graph} {arms : List BlockId} {params : List InstrId}
    (h : Spreads g g' arms params) : Grows g g' where
  blocks := h.size.ge
  code b := by
    by_cases ha : b ∈ arms
    · obtain ⟨passes, hcode, -⟩ := h.passed b ha
      rw [hcode]
      exact List.prefix_append _ _
    · simp only [h.others b ha, List.prefix_rfl]
  edges a b _ := by rw [Edge, h.successors, Edge]

section

variable {c c' : Construction} {phi : InstrId} {x : Variable} {u : Unit}

/-- An arm passes the value of a variable; one that it does not know is `undefined` there. -/
theorem passFrom_adds {arm : Arm} (h : passFrom phi x arm c = .ok u c') (hc : c.graph.Core)
    (henv : ∀ id, arm.env.get? x = some id → c.graph.Avail arm.block id) :
    c' = c.withGraph c'.graph ∧ c'.graph.Core ∧
      ∃ new, Adds c.graph c'.graph arm.block new ∧ PassCode new [phi] := by
  have pass : ∀ (c c' : Construction) (value : InstrId), c.graph.Core →
      c.graph.Avail arm.block value →
      discard (build (Builder.appendTo arm.block (.prim .toPhi) [phi, value])) c = .ok u c' →
      c' = c.withGraph c'.graph ∧ c'.graph.Core ∧
        ∃ new, Adds c.graph c'.graph arm.block new ∧ PassCode new [phi] := by
    intro c c' value hc hvalue h
    obtain ⟨_, hpass⟩ := discard_eq_ok.mp h
    obtain ⟨hlt, -, rfl⟩ := build_appendTo_eq_ok hpass
    refine ⟨rfl, hc.appended hlt fun id hid => ?_, _, hc.listed.adds_appended _ _ hlt, ?_⟩
    · simp only [newInstr, Instr.reads, if_pos, List.drop_one, List.tail_cons] at hid
      obtain rfl : id = value := by simpa [Input.value?] using hid
      exact hvalue
    · refine ⟨fun i hi => ?_, by simp [newInstr, Instr.passTarget?, Input.value?]⟩
      obtain rfl := List.mem_singleton.mp hi
      exact .inl ⟨rfl, phi, value, rfl⟩
  unfold passFrom at h
  cases hx : arm.env.get? x with
  | some id =>
    rw [hx] at h
    exact pass c c' id hc (henv id hx) h
  | none =>
    rw [hx] at h
    obtain ⟨value, t, hlit, hrest⟩ := bind_eq_ok.mp h
    obtain ⟨hlt, rfl, rfl⟩ := build_appendTo_eq_ok hlit
    have hcore : (appended c.graph arm.block (.prim .literal) [.const .undefined]).Core :=
      hc.appended hlt (by simp [newInstr, Instr.reads, Input.value?])
    have hadds : Adds c.graph _ arm.block [c.graph.newInstr arm.block (.prim .literal)
        [.const .undefined]] := hc.listed.adds_appended _ _ hlt
    have hlitcode : PassCode [c.graph.newInstr arm.block (.prim .literal) [.const .undefined]]
        [] := by
      refine ⟨fun i hi => ?_, by simp [newInstr, Instr.passTarget?]⟩
      obtain rfl := List.mem_singleton.mp hi
      exact .inr ⟨rfl, .undefined, rfl, rfl⟩
    obtain ⟨hsame, hcore', new, hnew, hpass⟩ := pass _ c' ⟨c.graph.instrs.size⟩ hcore
      (hc.avail_appended hlt rfl) hrest
    exact ⟨hsame, hcore', _, hadds.trans hnew, hlitcode.append hpass⟩

theorem passFrom_forM : ∀ {arms : List Arm} {c c' : Construction} {u : Unit},
    (arms.forM (passFrom phi x)) c = .ok u c' → c.graph.Core →
    (∀ a ∈ arms, a.block.index < c.graph.blocks.size) → (arms.map (·.block)).Nodup →
    (∀ a ∈ arms, ∀ id, a.env.get? x = some id → c.graph.Avail a.block id) →
      c' = c.withGraph c'.graph ∧ Spreads c.graph c'.graph (arms.map (·.block)) [phi]
  | [], c, c', u, h, hc, _, _, _ => by
    obtain ⟨_, rfl⟩ := pure_eq_ok.mp h
    exact ⟨rfl, hc, rfl, fun _ => rfl, by simp, fun _ _ => rfl⟩
  | a :: rest, c, c', u, h, hc, hvalid, hnodup, henv => by
    obtain ⟨t, ha, hrest⟩ := forM_cons_eq_ok.mp h
    obtain ⟨hsame, hcore, new, hadds, hpass⟩ := passFrom_adds ha hc (henv a (by simp))
    rw [List.map_cons, List.nodup_cons] at hnodup
    obtain ⟨hsame', hs⟩ := passFrom_forM hrest hcore
      (fun a' ha' => (hvalid a' (by simp [ha'])).trans_le hadds.size.ge) hnodup.2
      fun a' ha' id hid => hadds.grows.avail hc (hvalid a' (by simp [ha']))
        (henv a' (by simp [ha']) id hid)
    refine ⟨by rw [hsame', hsame]; rfl, hs.core, hs.size.trans hadds.size,
      fun b => (hs.successors b).trans (hadds.successors b), fun b hb => ?_, fun b hb => ?_⟩
    · rcases List.mem_cons.mp hb with rfl | hb
      · exact ⟨new, by rw [hs.others _ hnodup.1, hadds.code], hpass⟩
      · have hne : b ≠ a.block := fun he => hnodup.1 (he ▸ hb)
        obtain ⟨passes, hcode, hp⟩ := hs.passed b hb
        exact ⟨passes, by rw [hcode, hadds.others b hne], hp⟩
    · rw [List.map_cons, List.mem_cons, not_or] at hb
      exact (hs.others b hb.2).trans (hadds.others b hb.1)

end

section

variable {g : Graph} {arms : List Arm} {j : BlockId}

/-- The arms of a join: different blocks that lead to the joining block and to no other, with
environments that are available at their ends. -/
structure Meeting (g : Graph) (arms : List Arm) (j : BlockId) : Prop where
  core : g.Core
  valid : ∀ a ∈ arms, a.block.index < g.blocks.size
  distinct : (arms.map (·.block)).Nodup
  env : ∀ a ∈ arms, ∀ x id, a.env.get? x = some id → g.Avail a.block id
  join : 0 < j.index ∧ j.index < g.blocks.size
  apart : j ∉ arms.map (·.block)
  edges : ∀ a, g.Edge a j → a ∈ arms.map (·.block)

/-- The value of one more variable after a join. -/
theorem merge_merges {c c' : Construction} {x : Variable} {r : Variable × InstrId}
    {params : List InstrId} (hg : Meeting g arms j) (h : merge j arms x c = .ok r c')
    (hm : Merges g c.graph (arms.map (·.block)) j params) :
    c' = c.withGraph c'.graph ∧ c'.graph.Avail j r.2 ∧ Grows c.graph c'.graph ∧
      ∃ params', Merges g c'.graph (arms.map (·.block)) j params' := by
  have havail : ∀ a ∈ arms, ∀ id, a.env.get? x = some id → c.graph.Avail a.block id :=
    fun a ha id hid => hm.grows.avail hg.core (hg.valid a ha) (hg.env a ha x id hid)
  have hj : j.index < c.graph.blocks.size := hg.join.2.trans_le hm.size.ge
  unfold merge at h
  cases hx : common? arms x with
  | some value =>
    rw [hx] at h
    obtain ⟨rfl, rfl⟩ := pure_eq_ok.mp h
    refine ⟨rfl, ?_, Grows.refl _, params, hm⟩
    apply hm.core.avail_of_edges hg.join.1 hj
    intro a ha
    rw [Edge, hm.successors] at ha
    obtain ⟨arm, harm, rfl⟩ := List.mem_map.mp (hg.edges a ha)
    exact havail arm harm value (get?_of_common? hx arm harm)
  | none =>
    rw [hx] at h
    obtain ⟨phi, c₁, hphi, h⟩ := bind_eq_ok.mp h
    obtain ⟨_, c₂, hpass, h⟩ := bind_eq_ok.mp h
    obtain ⟨rfl, rfl⟩ := pure_eq_ok.mp h
    obtain ⟨-, rfl, rfl⟩ := build_appendTo_eq_ok hphi
    have hc := hm.core
    have hadds : Adds c.graph (appended c.graph j (.prim .phi) []) j
        [c.graph.newInstr j (.prim .phi) []] := hc.listed.adds_appended _ _ hj
    have hcore : (appended c.graph j (.prim .phi) []).Core :=
      hc.appended hj (by simp [newInstr, Instr.reads]) fun _ => hg.join.1
    obtain ⟨hsame, hs⟩ := passFrom_forM hpass hcore
      (fun a ha => (hg.valid a ha).trans_le (hm.size.ge.trans hadds.size.ge)) hg.distinct
      fun a ha id hid => hadds.grows.avail hc ((hg.valid a ha).trans_le hm.size.ge)
        (havail a ha id hid)
    have hs : Spreads (appended c.graph j (.prim .phi) []) c₂.graph _ _ := hs
    refine ⟨hsame, ?_, hadds.grows.trans hs.grows, params ++ [⟨c.graph.instrs.size⟩],
      hs.core, ?_, fun b => ?_, ?_, fun a ha => ?_, fun b hb hb' => ?_⟩
    · exact hs.grows.avail hcore (hj.trans_le hadds.size.ge) (hc.avail_appended hj rfl)
    · exact hs.size.trans (hadds.size.trans hm.size)
    · exact (hs.successors b).trans ((hadds.successors b).trans (hm.successors b))
    · obtain ⟨phis, hcode, hphis, hids⟩ := hm.joined
      refine ⟨phis ++ [c.graph.newInstr j (.prim .phi) []], ?_, fun i hi => ?_, ?_⟩
      · rw [hs.others j hg.apart, hadds.code, hcode, List.append_assoc]
      · rcases List.mem_append.mp hi with hi | hi
        · exact hphis i hi
        · obtain rfl := List.mem_singleton.mp hi
          exact ⟨rfl, rfl⟩
      · rw [List.map_append, hids]
        rfl
    · have hne : a ≠ j := fun he => hg.apart (he ▸ ha)
      obtain ⟨passes, hcode, hp⟩ := hm.passed a ha
      obtain ⟨new, hcode', hp'⟩ := hs.passed a ha
      refine ⟨passes ++ new, ?_, hp.append hp'⟩
      rw [hcode', hadds.others a hne, hcode, List.append_assoc]
    · rw [hs.others b hb', hadds.others b hb, hm.others b hb hb']

theorem merge_mapM (hg : Meeting g arms j) : ∀ {xs : List Variable} {c c' : Construction}
    {env : Env} {params : List InstrId}, (xs.mapM (merge j arms)) c = .ok env c' →
    Merges g c.graph (arms.map (·.block)) j params →
      c' = c.withGraph c'.graph ∧ (∀ r ∈ env, c'.graph.Avail j r.2) ∧ Grows c.graph c'.graph ∧
        ∃ params', Merges g c'.graph (arms.map (·.block)) j params'
  | [], c, c', env, params, h, hm => by
    rw [List.mapM_nil] at h
    obtain ⟨rfl, rfl⟩ := pure_eq_ok.mp h
    exact ⟨rfl, by simp, Grows.refl _, params, hm⟩
  | x :: xs, c, c', env, params, h, hm => by
    obtain ⟨r, t, rest, hr, hrest, rfl⟩ := mapM_cons_eq_ok.mp h
    obtain ⟨hsame, hval, hgrows, params₁, hm₁⟩ := merge_merges hg hr hm
    obtain ⟨hsame', hvals, hgrows', params₂, hm₂⟩ := merge_mapM hg hrest hm₁
    refine ⟨by rw [hsame', hsame]; rfl, fun r' hr' => ?_, hgrows.trans hgrows', params₂, hm₂⟩
    rcases List.mem_cons.mp hr' with rfl | hr'
    · exact hgrows'.avail hm₁.core (hg.join.2.trans_le hm₁.size.ge) hval
    · exact hvals r' hr'

end

/-- The start of a join: a new block, and edges to it from all arms. -/
theorem forks_of_edges {g g₁ : Graph} {arms : List Arm} {O : List BlockId}
    (hs : g.Sketch (arms.map (·.block) ++ O)) (hne : arms ≠ []) (hi : g₁.instrs = g.instrs)
    (hsize : g₁.blocks.size = g.blocks.size + 1)
    (hb : ∀ i, g₁.blocks[i]? = (g.addBlock.2.blocks[i]?).map fun B =>
      if i ∈ arms.map (·.block.index) then { B with successors := [⟨g.blocks.size⟩] } else B) :
    Forks g g₁ (arms.map (·.block)) [⟨g.blocks.size⟩] := by
  have hget : ∀ i : Nat, g.addBlock.2.blocks[i]?.getD ({} : Block) = g.blocks[i]?.getD {} := by
    intro i
    simp only [addBlock, Array.getElem?_push]
    split
    · rename_i h
      rw [h, Array.getElem?_eq_none le_rfl]
      rfl
    · rfl
  have hmem : ∀ b : BlockId, b.index ∈ arms.map (·.block.index) ↔ b ∈ arms.map (·.block) := by
    intro b
    simp only [List.mem_map]
    constructor
    · rintro ⟨a, ha, he⟩
      exact ⟨a, ha, by cases hb : a.block; cases b; simp_all⟩
    · rintro ⟨a, ha, rfl⟩
      exact ⟨a, ha, rfl⟩
  have hvalid : ∀ b ∈ arms.map (·.block), g.Opened b := fun b hb => hs.opened b (by simp [hb])
  refine ⟨hi, by omega, fun b => ?_, fun b => ?_, fun t => ?_, fun b hb => ?_, by simpa using hne⟩
  · simp only [listing, Array.getD_eq_getD_getElem?, hb, ← hget b.index]
    cases g.addBlock.2.blocks[b.index]? with
    | none => rfl
    | some B =>
      simp only [Option.map_some, Option.getD_some]
      split <;> rfl
  · simp only [Graph.successors, Array.getD_eq_getD_getElem?, hb, ← hget b.index, hmem]
    by_cases hm : b ∈ arms.map (·.block)
    · have hlt := (hvalid b hm).valid
      have hsome : g.addBlock.2.blocks[b.index]? = some g.blocks[b.index] := by
        simp only [addBlock]
        rw [Array.getElem?_push, if_neg hlt.ne, Array.getElem?_eq_getElem hlt]
      rw [if_pos hm, hsome]
      simp [hm]
    · rw [if_neg hm]
      cases g.addBlock.2.blocks[b.index]? with
      | none => rfl
      | some B => simp [hm]
  · obtain ⟨k⟩ := t
    rw [hsize, List.mem_singleton, BlockId.mk.injEq]
    change k = _ ↔ _ ≤ k ∧ k < _
    omega
  · exact ⟨(hvalid b hb).valid, (hvalid b hb).blank⟩

/-- Arms that have not returned meet in a new block, with an environment that is available there. -/
theorem join_sketch {arms : List Arm} {c c' : Construction} {u : Unit} {O : List BlockId}
    (h : join arms c = .ok u c') (hlive : arms.filter (!·.done) ≠ [])
    (hs : c.graph.Sketch ((arms.filter (!·.done)).map (·.block) ++ O))
    (henv : ∀ a ∈ arms.filter (!·.done), ∀ x id, a.env.get? x = some id →
      c.graph.Avail a.block id) :
    c'.graph.Sketch (c'.here :: O) ∧ c'.frame.done = false ∧ Grows c.graph c'.graph ∧
      c'.graphs = c.graphs ∧ (∀ x id, c'.frame.env.get? x = some id → c'.graph.Avail c'.here id) ∧
      (∀ b, ∀ i ∈ c'.graph.code b, i ∈ c.graph.code b ∨ i.IsPhi ∨ i.IsPass ∨ i.IsLiteral) ∧
      ∀ id, (∀ a ∈ arms.filter (!·.done), c.graph.Avail a.block id) →
        c'.graph.Avail c'.here id := by
  generalize hfilter : arms.filter (!·.done) = live at *
  unfold join at h
  simp only [hfilter] at h
  rw [if_neg (by simpa using hlive)] at h
  obtain ⟨j, c₁, hj, h⟩ := bind_eq_ok.mp h
  obtain ⟨rfl, rfl⟩ := build_newBlock_eq_ok hj
  obtain ⟨_, c₂, hsucc, h⟩ := bind_eq_ok.mp h
  obtain ⟨(env : Env), c₃, hmerge, h⟩ := bind_eq_ok.mp h
  obtain ⟨hsame₂, hi₂, hs₂, hb₂⟩ := setSuccessors_forM hsucc
  have hf : Forks c.graph c₂.graph (live.map (·.block)) [⟨c.graph.blocks.size⟩] :=
    forks_of_edges hs hlive hi₂ (by rw [hs₂]; simp [addBlock]) hb₂
  have hc := hs.toCore
  have hvalid : ∀ a ∈ live, a.block.index < c.graph.blocks.size := fun a ha =>
    (hs.opened a.block (List.mem_append_left _ (List.mem_map_of_mem ha))).valid
  have hjoin : c.graph.blocks.size < c₂.graph.blocks.size :=
    ((hf.fresh ⟨c.graph.blocks.size⟩).mp (by simp)).2
  have hmeet : Meeting c₂.graph live ⟨c.graph.blocks.size⟩ := by
    refine ⟨hf.core hc, fun a ha => (hvalid a ha).trans_le hf.blocks,
      (List.nodup_append.mp hs.distinct).1, fun a ha x id hx =>
        hf.grows.avail hc (hvalid a ha) (henv a ha x id hx), ⟨hc.entry, hjoin⟩, ?_, fun a ha => ?_⟩
    · intro hmem
      obtain ⟨a, ha, he⟩ := List.mem_map.mp hmem
      have := hvalid a ha
      rw [he] at this
      exact absurd this (lt_irrefl _)
    · rcases hf.edge_iff.mp ha with ⟨ha, -⟩ | ha
      · exact ha
      · exact absurd (hc.forward _ _ ha).2 (lt_irrefl _)
  have hstart : Merges c₂.graph c₂.graph (live.map (·.block)) ⟨c.graph.blocks.size⟩ [] :=
    ⟨hf.core hc, rfl, fun _ => rfl, ⟨[], by simp, by simp, rfl⟩,
      fun a _ => ⟨[], by simp, by simp, rfl⟩, fun _ _ _ => rfl⟩
  obtain ⟨hsame₃, hvals, hgrows, params, hm⟩ := merge_mapM hmeet hmerge hstart
  obtain rfl := resume_eq_ok h
  refine ⟨hs.join hf hm, rfl, hf.grows.trans hgrows, ?_, fun x id hx => ?_, fun b i hi => ?_,
    fun id hid => ?_⟩
  · change c₃.graphs = c.graphs
    rw [hsame₃, hsame₂]
    rfl
  · exact hvals _ (mem_of_get? hx)
  · rw [← hf.code b]
    exact hm.mem_code hi
  · refine hgrows.avail (hf.core hc) hjoin (hf.avail hc (by simp) fun b hb => ?_)
    obtain ⟨a, ha, rfl⟩ := List.mem_map.mp hb
    exact hid a ha

end ScriptEngine.Graph
