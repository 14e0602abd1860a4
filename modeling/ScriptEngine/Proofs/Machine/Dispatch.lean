import ScriptEngine.InlineCache
import ScriptEngine.Proofs.Machine.Built
import ScriptEngine.Proofs.Machine.Constants
import ScriptEngine.Proofs.Machine.Stubs
import ScriptEngine.Proofs.Machine.Words

/-!
The dispatch code of inline caches. It is built by a loop over the probes, block by block; whatever
runs it gets the slot of the first probe that knows the receiver, or goes on to the miss stub.
-/

namespace ScriptEngine

open State Builder Meaning

namespace InlineCache

open Engine

/-- What an inline cache is asked, and what a world does about it. -/
structure Query (V ε σ : Type) where
  object : V
  key : V
  /-- Whether the object is a small integer. -/
  small : Bool
  shape : EStateM ε σ V
  /-- Whether a value is a heap pointer that the code compares it with. -/
  is : V → Word → Bool
  /-- Values that stand for a slot. -/
  slot : Nat → V → Prop
  missed : EStateM ε σ V

/-- Whether a probe knows the shape, and the key if it is looked at. -/
def Query.fits {V ε σ : Type} (q : Query V ε σ) (keyed : Bool) (shape : V) (p : Probe) : Bool :=
  q.is shape p.shape && (!keyed || p.key.all (q.is q.key))

/-- A block that control can reach. -/
abbrev Reach (g : Graph) (b : BlockId) : Prop := Relation.ReflTransGen g.Edge ⟨0⟩ b

/-- In a world the operations of dispatch code mean what the query says. -/
structure Poses {V ε σ : Type} (W : World V ε σ) (q : Query V ε σ) (g : Graph) : Prop where
  object : ∀ i x, i.op = .prim .cacheArg → i.inputs = [raw 0] → W.act i x [] = pure q.object
  key : ∀ i x, i.op = .prim .cacheArg → i.inputs = [raw 1] → W.act i x [] = pure q.key
  small : ∀ i x, i.op = .prim .isSmi → x 0 = q.object → W.test i x = pure q.small
  shape : ∀ i x, i.op = .prim .read → i.rawAt 1 = (Layout.shape : Int) → x 0 = q.object → W.act i x [] = q.shape
  compare : ∀ b, Reach g b → ∀ j ∈ g.code b, ∀ w, j.op = .prim .literal →
    ∀ c ∈ [Const.weak w, Const.heap w], j.inputs = [.const c] →
    ∀ i x, i.op = .prim .comparePointer → i.condAt 2 = .eq → x 1 = W.const j.id 0 c →
      W.test i x = pure (q.is (x 0) w)
  slot : ∀ b, Reach g b → ∀ j ∈ g.code b, ∀ n : Nat, j.op = .prim .literal →
    j.inputs = [.const (.smi n)] → q.slot n (W.const j.id 0 (.smi n))
  missed : ∀ b, Reach g b → ∀ j ∈ g.code b, j.op = .prim .tailCall →
    j.inputs = [.const (.stub Stub.missStub)] → W.tailCall (W.const j.id 0 (.stub Stub.missStub)) = q.missed

/-- Operations of dispatch code. -/
def Dispatches (i : Instr) : Prop :=
  ∃ op ∈ [PrimOp.cacheArg, .isSmi, .read, .literal, .comparePointer, .cacheRet, .tailCall], i.op = .prim op

/-- A builder of dispatch code, whose current block may get more. -/
structure Site (b : Builder) : Prop where
  listed : b.graph.Listed
  opened : b.graph.Open b.current
  only : b.graph.Only Dispatches

section

variable {g : Graph} {c t : BlockId}

theorem Site.emit (h : Site ⟨g, c⟩) (op : PrimOp) (ins : List Input)
    (hop : op ∈ [PrimOp.cacheArg, .isSmi, .read, .literal, .comparePointer, .cacheRet, .tailCall]) :
    Site ⟨appended g c (.prim op) ins, c⟩ :=
  ⟨h.listed.appended h.opened.inside, h.opened.appended,
    h.only.appended h.listed h.opened.inside ⟨op, hop, rfl⟩⟩

theorem Site.addBlock (h : Site ⟨g, c⟩) : Site ⟨g.addBlock.2, c⟩ :=
  ⟨h.listed.addBlock, h.opened.addBlock, h.only.addBlock⟩

theorem Site.linked (h : Site ⟨g, c⟩) (next : List BlockId) (ht : g.Open t) (hne : t ≠ c) :
    Site ⟨g.linked c next, t⟩ :=
  ⟨h.listed.linked, ht.linked hne, h.only.linked⟩

theorem Site.switch (h : Site ⟨g, c⟩) (ht : g.Open t) : Site ⟨g, t⟩ := ⟨h.listed, ht, h.only⟩

/-- The graph with code at the end of a block that compares a register with a heap pointer. -/
def compared (g : Graph) (c : BlockId) (value : InstrId) (k : Const) : Graph :=
  appended (appended g c (.prim .literal) [.const k]) c (.prim .comparePointer)
    [.value value, .value ⟨g.instrs.size⟩, .const (.cond .eq)]

theorem Site.compare (h : Site ⟨g, c⟩) (value : InstrId) (k : Const) : Site ⟨compared g c value k, c⟩ :=
  (h.emit .literal [.const k] (by simp)).emit .comparePointer _ (by simp)

theorem Site.completes_compared (h : Site ⟨g, c⟩) (value : InstrId) (k : Const) :
    g.Completes (compared g c value k) :=
  (Graph.completes_appended h.listed h.opened _ _).trans
    (Graph.completes_appended (h.listed.appended h.opened.inside) h.opened.appended _ _)

theorem Site.blank_compared (h : Site ⟨g, c⟩) {value : InstrId} {k : Const} (ht : g.Blank t) (hne : t ≠ c) :
    (compared g c value k).Blank t :=
  (ht.appended h.listed hne).appended (h.listed.appended h.opened.inside) hne

@[simp] theorem instrs_compared (value : InstrId) (k : Const) :
    (compared g c value k).instrs.size = g.instrs.size + 2 := by simp [InlineCache.compared]

@[simp] theorem blocks_compared (value : InstrId) (k : Const) :
    (compared g c value k).blocks.size = g.blocks.size := by simp [InlineCache.compared]

end

theorem parameters_of_only {G : Graph} (h : G.Only Dispatches) (t : BlockId) : G.parameters t = [] := by
  refine Graph.parameters_eq_nil fun i hi hop => ?_
  obtain ⟨op, hmem, heq⟩ := h t i hi
  rw [hop] at heq
  cases heq
  simp at hmem

/-- A builder that has gone on, and left alone the block for what no probe knows. -/
structure Onward (g : Graph) (miss : BlockId) (b' : Builder) : Prop where
  site : Site b'
  completes : g.Completes b'.graph
  instrs : g.instrs.size ≤ b'.graph.instrs.size
  blank : b'.graph.Blank miss
  apart : miss ≠ b'.current

/-- End a block with the answer of a probe if the condition holds. -/
theorem makes_hit {g : Graph} {c hit next miss : BlockId} (hs : Site ⟨g, c⟩) (hhit : g.Blank hit)
    (hnext : g.Blank next) (hmiss : g.Blank miss) (hapart : hit ≠ c ∧ next ≠ c ∧ miss ≠ c)
    (hdistinct : next ≠ hit ∧ miss ≠ hit ∧ miss ≠ next) (slot : Nat) :
    Makes (do
      branch hit next
      switchTo hit
      let value ← literal (.smi slot)
      discard (emit .cacheRet [value])
      switchTo next) ⟨g, c⟩ fun _ b' => Onward g miss b' ∧ b'.current = next ∧ b'.graph.Blank next ∧ ∃ id,
        ∀ (V ε σ : Type) (W : World V ε σ) (q : Query V ε σ) (G : Graph), b'.graph.Completes G →
          G.Only Dispatches → Poses W q G → Reach G c → q.slot slot (W.const id 0 (.smi slot)) ∧
          Reach G next ∧ ∀ jumps s v, s.condition = some v → ∃ s' : Progress V, s'.regs = s.regs ∧
            resume W G (jumps + 1) ⟨g, c⟩ s =
              if v then pure (W.const id 0 (.smi slot)) else resume W G jumps b' s' := by
  have hc := hs.opened
  have hs₁ := hs.linked [hit, next] hhit.toOpen hapart.1
  have hnext₁ : (g.linked c [hit, next]).Blank next := hnext.linked hapart.2.1
  have hs₂ := hs₁.emit .literal [.const (.smi slot)] (by simp)
  have hs₃ := hs₂.emit .cacheRet [.value ⟨g.instrs.size⟩] (by simp)
  have hkeep : ∀ {t : BlockId}, g.Blank t → t ≠ c → t ≠ hit →
      (appended (appended (g.linked c [hit, next]) hit (.prim .literal) [.const (.smi slot)]) hit
        (.prim .cacheRet) [.value ⟨g.instrs.size⟩]).Blank t := fun ht hne hne' =>
    ((ht.linked hne).appended hs₁.listed hne').appended hs₂.listed hne'
  refine .step (branch_apply hit next hc.inside) (.step (switchTo_apply hit)
    (.step (emit_apply .literal [.const (.smi slot)] hs₁.opened.inside)
    (.step (discard_emit_apply .cacheRet [.value ⟨g.instrs.size⟩] hs₂.opened.inside)
    ⟨(), _, switchTo_apply next, ?_⟩)))
  have hcomplete₁ := Graph.completes_linked hc [hit, next]
  have hcomplete₂ := Graph.completes_appended hs₁.listed hs₁.opened (.prim .literal) [.const (.smi slot)]
  have hcomplete₃ := Graph.completes_appended hs₂.listed hs₂.opened (.prim .cacheRet) [.value ⟨g.instrs.size⟩]
  have hblank := hkeep hnext hapart.2.1 hdistinct.1
  refine ⟨⟨hs₃.switch hblank.toOpen, (hcomplete₁.trans hcomplete₂).trans hcomplete₃, ?_,
    hkeep hmiss hapart.2.2 hdistinct.2.1, hdistinct.2.2⟩, rfl, hblank, ⟨g.instrs.size⟩, ?_⟩
  · simp
    omega
  intro V ε σ W q G hG honly hposes hreach
  have hG₂ := hcomplete₃.trans hG
  have hG₁ := hcomplete₂.trans hG₂
  have hedge : ∀ t ∈ [hit, next], G.Edge c t := fun t ht => edge_linked ht hc.inside hG₁
  have hhitReach := hreach.tail (hedge hit (by simp))
  refine ⟨?_, hreach.tail (hedge next (by simp)), fun jumps s v hv => ?_⟩
  · refine hposes.slot hit hhitReach ((g.linked c [hit, next]).newInstr hit (.prim .literal) [.const (.smi slot)])
      ?_ slot rfl rfl
    refine (hG₂.code hit).subset ?_
    rw [hs₁.listed.code_appended_self hs₁.opened.inside]
    simp
  · rw [resume_branch hv hc.inside hG₁]
    cases v with
    | true =>
      refine ⟨s, rfl, ?_⟩
      simp only [if_true]
      rw [@runAt_eq_resume _ _ _ W G (g.linked c [hit, next]) hit _ _ (by rw [Graph.code_linked, hhit.empty]),
        resume_literal hs₁.listed hs₁.opened.inside hG₂,
        resume_ret hs₂.listed hs₂.opened.inside (.inr rfl) hG]
      simp [World.values, Graph.newInstr, Progress.setReg]
    | false =>
      refine ⟨_, enter_regs (W := W) (s := s) (parameters_of_only honly next), ?_⟩
      simp only [Bool.false_eq_true, if_false]
      exact runAt_eq_resume hblank.empty

section

variable {V ε σ : Type} {W : World V ε σ} {q : Query V ε σ} {G g : Graph} {c miss : BlockId}
  {shape : InstrId} {key : Option InstrId}

theorem resume_compare (hs : Site ⟨g, c⟩) {value : InstrId} (hvalue : value.index < g.instrs.size) {k : Const}
    {w : Word} (hk : k ∈ [Const.weak w, Const.heap w]) (hposes : Poses W q G) (hreach : Reach G c)
    (hG : (compared g c value k).Completes G) (jumps : Nat) (s : Progress V) : ∃ s' : Progress V,
      (∀ id, id.index < g.instrs.size → s'.regs id = s.regs id) ∧
      s'.condition = some (q.is (s.regs value) w) ∧
      resume W G jumps ⟨g, c⟩ s = resume W G jumps ⟨compared g c value k, c⟩ s' := by
  have hs₁ := hs.emit .literal [.const k] (by simp)
  have hG₁ := (Graph.completes_appended hs₁.listed hs₁.opened (.prim .comparePointer)
    [.value value, .value ⟨g.instrs.size⟩, .const (.cond .eq)]).trans hG
  have hmem : g.newInstr c (.prim .literal) [.const k] ∈ G.code c := by
    refine (hG₁.code c).subset ?_
    rw [hs.listed.code_appended_self hs.opened.inside]
    simp
  have hold : ∀ id : InstrId, id.index < g.instrs.size → id ≠ ⟨g.instrs.size⟩ := by
    rintro id hid rfl
    exact lt_irrefl _ hid
  have htest : ∀ i : Instr, i.op = .prim .comparePointer →
      i.inputs = [.value value, .value ⟨g.instrs.size⟩, .const (.cond .eq)] →
      W.test i (W.values (s.setReg ⟨g.instrs.size⟩ (W.const ⟨g.instrs.size⟩ 0 k)) i) =
        pure (q.is (s.regs value) w) := by
    intro i hop hi
    rw [hposes.compare c hreach _ hmem w rfl k hk rfl i _ hop (by simp [Instr.condAt, hi])
      (by simp [World.values, hi, Progress.setReg, Graph.newInstr])]
    simp [World.values, hi, Progress.setReg, hold value hvalue]
  refine ⟨{ s.setReg ⟨g.instrs.size⟩ (W.const ⟨g.instrs.size⟩ 0 k) with
    condition := some (q.is (s.regs value) w) }, fun id hid => if_neg (hold id hid), rfl, ?_⟩
  rw [resume_literal hs.listed hs.opened.inside hG₁,
    resume_test hs₁.listed hs₁.opened.inside rfl (htest _ rfl rfl) hG]
  rfl

theorem makes_compare (hs : Site ⟨g, c⟩) (value : InstrId) (k : Const) {rest : BuildM Unit}
    {Q : Unit → Builder → Prop} (h : Makes rest ⟨compared g c value k, c⟩ Q) :
    Makes (do
      let expected ← literal k
      discard (comparePointer value expected .eq)
      rest) ⟨g, c⟩ Q :=
  .step (emit_apply .literal [.const k] hs.opened.inside)
    (.step (discard_emit_apply .comparePointer _ (hs.emit .literal _ (by simp)).opened.inside) h)

/-- The code of a probe answers its slot if it fits; otherwise it goes on where the builder has come to. -/
def ProbeRuns (g : Graph) (c : BlockId) (shape : InstrId) (key : Option InstrId) (p : Probe) (b' : Builder) : Prop :=
  ∃ id, ∀ (V ε σ : Type) (W : World V ε σ) (q : Query V ε σ) (G : Graph), b'.graph.Completes G →
    G.Only Dispatches → Poses W q G → Reach G c → q.slot p.slot (W.const id 0 (.smi p.slot)) ∧
    Reach G b'.current ∧ ∀ jumps (s : Progress V), (∀ k ∈ key, s.regs k = q.key) →
      ∃ s' jumps', (∀ i, i.index < g.instrs.size → s'.regs i = s.regs i) ∧ jumps ≤ jumps' ∧
        resume W G (jumps + 2) ⟨g, c⟩ s =
          if q.fits key.isSome (s.regs shape) p then pure (W.const id 0 (.smi p.slot))
          else resume W G jumps' b' s'

/-- The graph with two more blocks and the comparison of a shape, which every probe starts with. -/
def started (g : Graph) (c : BlockId) (shape : InstrId) (p : Probe) : Graph :=
  compared g.addBlock.2.addBlock.2 c shape (.weak p.shape)

theorem Site.start (hs : Site ⟨g, c⟩) (shape : InstrId) (p : Probe) : Site ⟨started g c shape p, c⟩ :=
  hs.addBlock.addBlock.compare _ _

theorem Site.completes_started (hs : Site ⟨g, c⟩) (shape : InstrId) (p : Probe) :
    g.Completes (started g c shape p) :=
  (Graph.completes_addBlock.trans Graph.completes_addBlock).trans (hs.addBlock.addBlock.completes_compared _ _)

theorem Site.blank_started (hs : Site ⟨g, c⟩) (shape : InstrId) (p : Probe) :
    (started g c shape p).Blank ⟨g.blocks.size⟩ ∧ (started g c shape p).Blank ⟨g.blocks.size + 1⟩ := by
  have hlt := hs.opened.inside
  have hhit : g.addBlock.2.addBlock.2.Blank ⟨g.blocks.size⟩ := (Graph.blank_new _).addBlock
  have hnext : g.addBlock.2.addBlock.2.Blank ⟨g.blocks.size + 1⟩ := by
    simpa only [Graph.addBlock_blocks_size] using Graph.blank_new g.addBlock.2
  refine ⟨hs.addBlock.addBlock.blank_compared hhit ?_, hs.addBlock.addBlock.blank_compared hnext ?_⟩
  · rintro rfl
    exact absurd hlt (by simp)
  · rintro rfl
    exact absurd hlt (by simp)

/-- The comparison of the shape decides where the code goes. -/
theorem resume_started (hs : Site ⟨g, c⟩) (hshape : shape.index < g.instrs.size) {p : Probe} (hposes : Poses W q G)
    (hreach : Reach G c) (hG : (started g c shape p).Completes G) (jumps : Nat) (s : Progress V) :
    ∃ s' : Progress V,
      (∀ id, id.index < g.instrs.size → s'.regs id = s.regs id) ∧
      s'.condition = some (q.is (s.regs shape) p.shape) ∧
      resume W G jumps ⟨g, c⟩ s = resume W G jumps ⟨started g c shape p, c⟩ s' := by
  have hk : Const.weak p.shape ∈ [Const.weak p.shape, Const.heap p.shape] := by simp
  have := resume_compare hs.addBlock.addBlock hshape hk hposes hreach hG jumps s
  rwa [resume_addBlock, resume_addBlock] at this

@[simp] theorem instrs_started {p : Probe} : (started g c shape p).instrs.size = g.instrs.size + 2 := by
  simp [started]

@[simp] theorem blocks_started {p : Probe} : (started g c shape p).blocks.size = g.blocks.size + 2 := by
  simp [started]

/-- A block that was there differs from the blocks of a probe. -/
theorem ne_new_of_lt {t : BlockId} (h : t.index < g.blocks.size) (k : Nat) : t ≠ ⟨g.blocks.size + k⟩ := by
  rintro rfl
  exact absurd h (by simp)

/-- The parts of a probe that are there when the shape has been compared. -/
structure Prepared (g : Graph) (c miss : BlockId) (g₁ : Graph) : Prop where
  site : Site ⟨g₁, c⟩
  completes : g.Completes g₁
  hit : g₁.Blank ⟨g.blocks.size⟩
  next : g₁.Blank ⟨g.blocks.size + 1⟩
  blank : g₁.Blank miss
  inside : c.index < g.blocks.size
  below : miss.index < g.blocks.size
  apart : miss ≠ c

theorem prepared (hs : Site ⟨g, c⟩) (hmiss : g.Blank miss) (hapart : miss ≠ c) (shape : InstrId) (p : Probe) :
    Prepared g c miss (started g c shape p) where
  site := hs.start shape p
  completes := hs.completes_started shape p
  hit := (hs.blank_started shape p).1
  next := (hs.blank_started shape p).2
  blank := hs.addBlock.addBlock.blank_compared hmiss.addBlock.addBlock hapart
  inside := hs.opened.inside
  below := hmiss.inside
  apart := hapart

/-- The end of a probe, in the block that its last comparison stands in. -/
def probeEnd (g : Graph) (p : Probe) : BuildM Unit := do
  branch ⟨g.blocks.size⟩ ⟨g.blocks.size + 1⟩
  switchTo ⟨g.blocks.size⟩
  let value ← literal (.smi p.slot)
  discard (emit .cacheRet [value])
  switchTo ⟨g.blocks.size + 1⟩

/-- A probe that looks at no key. -/
theorem makes_unkeyed {p : Probe} (hs : Site ⟨g, c⟩) (hmiss : g.Blank miss) (hapart : miss ≠ c)
    (hshape : shape.index < g.instrs.size) (hnone : key.isSome = true → p.key = none) :
    Makes (probeEnd g p) ⟨started g c shape p, c⟩
      fun _ b' => Onward g miss b' ∧ b'.graph.Blank b'.current ∧ ProbeRuns g c shape key p b' := by
  have h := prepared hs hmiss hapart shape p
  refine (makes_hit h.site h.hit h.next h.blank
    ⟨(ne_new_of_lt h.inside 0).symm, (ne_new_of_lt h.inside 1).symm, h.apart⟩
    ⟨by simp, ne_new_of_lt h.below 0, ne_new_of_lt h.below 1⟩ p.slot).mono ?_
  rintro _ ⟨g', t⟩ ⟨honward, rfl, hblank, id, hruns⟩
  have hinstrs := honward.instrs
  rw [instrs_started] at hinstrs
  refine ⟨⟨honward.site, h.completes.trans honward.completes, by omega, honward.blank, honward.apart⟩, hblank,
    id, fun V ε σ W q G hG honly hposes hreach => ?_⟩
  obtain ⟨hslot, hreach', hend⟩ := hruns V ε σ W q G hG honly hposes hreach
  refine ⟨hslot, hreach', fun jumps s _ => ?_⟩
  obtain ⟨s₁, hregs₁, hcond, heq₁⟩ :=
    resume_started hs hshape hposes hreach (honward.completes.trans hG) (jumps + 2) s
  obtain ⟨s₂, hregs₂, heq₂⟩ := hend (jumps + 1) s₁ _ hcond
  refine ⟨s₂, jumps + 1, fun i hi => by rw [hregs₂, hregs₁ i hi], by omega, ?_⟩
  have hfits : q.fits key.isSome (s.regs shape) p = q.is (s.regs shape) p.shape := by
    cases key with
    | none => simp [Query.fits]
    | some k => simp [Query.fits, hnone rfl]
  rw [heq₁, heq₂, hfits]

/-- A probe that looks at a key too, if the shape is right. -/
theorem makes_keyed {p : Probe} {k : InstrId} {w : Word} (hs : Site ⟨g, c⟩) (hmiss : g.Blank miss)
    (hapart : miss ≠ c) (hshape : shape.index < g.instrs.size) (hk : k.index < g.instrs.size)
    (hkey : p.key = some w) :
    Makes (do
      let sameShape ← newBlock
      branch sameShape ⟨g.blocks.size + 1⟩
      switchTo sameShape
      let expected ← literal (.heap w)
      discard (comparePointer k expected .eq)
      probeEnd g p) ⟨started g c shape p, c⟩
      fun _ b' => Onward g miss b' ∧ b'.graph.Blank b'.current ∧ ProbeRuns g c shape (some k) p b' := by
  have h := prepared hs hmiss hapart shape p
  generalize hg₁ : started g c shape p = g₁ at h
  have hsize : g₁.blocks.size = g.blocks.size + 2 := by rw [← hg₁, blocks_started]
  have hinstrs : g₁.instrs.size = g.instrs.size + 2 := by rw [← hg₁, instrs_started]
  obtain ⟨same, hsame⟩ : ∃ same : BlockId, same = ⟨g₁.blocks.size⟩ := ⟨_, rfl⟩
  have hnew : g₁.addBlock.2.Blank same := hsame ▸ Graph.blank_new g₁
  have hne : ∀ {t : BlockId}, t.index < g₁.blocks.size → t ≠ same := by
    rintro t ht rfl
    exact absurd ht (by simp [hsame])
  have hc := fun k => ne_new_of_lt h.inside k
  have hs₂ : Site ⟨g₁.addBlock.2.linked c [same, ⟨g.blocks.size + 1⟩], same⟩ :=
    h.site.addBlock.linked _ hnew.toOpen (hne h.site.opened.inside).symm
  have hkeep : ∀ {t : BlockId}, g₁.Blank t → t ≠ c →
      (compared (g₁.addBlock.2.linked c [same, ⟨g.blocks.size + 1⟩]) same k (.heap w)).Blank t := fun ht hne' =>
    hs₂.blank_compared (ht.addBlock.linked hne') (hne ht.inside)
  have hs₃ := hs₂.compare k (.heap w)
  refine .step newBlock_apply ?_
  rw [← hsame]
  refine .step (branch_apply _ _ h.site.addBlock.opened.inside) (.step (switchTo_apply _) ?_)
  refine makes_compare hs₂ k (.heap w) ?_
  refine (makes_hit hs₃ (hkeep h.hit (hc 0).symm) (hkeep h.next (hc 1).symm) (hkeep h.blank h.apart)
    ⟨hne h.hit.inside, hne h.next.inside, hne h.blank.inside⟩
    ⟨by simp, ne_new_of_lt h.below 0, ne_new_of_lt h.below 1⟩ p.slot).mono ?_
  rintro _ ⟨g', t⟩ ⟨honward, rfl, hblank, id, hruns⟩
  have hcompletes₂ : g₁.addBlock.2.Completes (g₁.addBlock.2.linked c [same, ⟨g.blocks.size + 1⟩]) :=
    Graph.completes_linked h.site.addBlock.opened _
  have hcompletes := (hcompletes₂.trans (hs₂.completes_compared k (.heap w))).trans honward.completes
  have hinstrs' := honward.instrs
  rw [instrs_compared, Graph.linked_instrs, Graph.addBlock_instrs, hinstrs] at hinstrs'
  refine ⟨⟨honward.site, (h.completes.trans Graph.completes_addBlock).trans hcompletes, by omega, honward.blank,
    honward.apart⟩, hblank, id, fun V ε σ W q G hG honly hposes hreach => ?_⟩
  have hG₂ := ((hs₂.completes_compared k (.heap w)).trans honward.completes).trans hG
  have hsameReach : Reach G same := hreach.tail (edge_linked (by simp) h.site.addBlock.opened.inside hG₂)
  obtain ⟨hslot, hreach', hend⟩ := hruns V ε σ W q G hG honly hposes hsameReach
  refine ⟨hslot, hreach', fun jumps s hs' => ?_⟩
  have hG₁ := (Graph.completes_addBlock.trans hcompletes).trans hG
  obtain ⟨s₁, hregs₁, hcond₁, heq₁⟩ :=
    resume_started hs hshape hposes hreach (hg₁.symm ▸ hG₁) (jumps + 2) s
  have hfits : q.fits (some k).isSome (s.regs shape) p = (q.is (s.regs shape) p.shape && q.is q.key w) := by
    simp [Query.fits, hkey]
  rw [heq₁, hg₁, ← resume_addBlock, resume_branch hcond₁ h.site.addBlock.opened.inside hG₂, hfits]
  cases q.is (s.regs shape) p.shape with
  | false =>
    refine ⟨_, jumps + 1, fun i hi => ?_, by omega, runAt_eq_resume hblank.empty⟩
    rw [enter_regs (parameters_of_only honly _), hregs₁ i hi]
  | true =>
    have hmem : Const.heap w ∈ [Const.weak w, Const.heap w] := by simp
    obtain ⟨s₂, hregs₂, hcond₂, heq₂⟩ := resume_compare hs₂ (by simp [hinstrs]; omega) hmem hposes hsameReach
      (honward.completes.trans hG) (jumps + 1) (W.enter G s₁ same)
    obtain ⟨s₃, hregs₃, heq₃⟩ := hend jumps s₂ _ hcond₂
    have hentered := enter_regs (W := W) (s := s₁) (parameters_of_only honly same)
    refine ⟨s₃, jumps, fun i hi => ?_, le_rfl, ?_⟩
    · rw [hregs₃, hregs₂ i (by simp [hinstrs]; omega), hentered, hregs₁ i hi]
    · have hstart : W.runAt G (jumps + 2) same (W.enter G s₁ same) = resume W G (jumps + 1)
          ⟨g₁.addBlock.2.linked c [same, ⟨g.blocks.size + 1⟩], same⟩ (W.enter G s₁ same) :=
        runAt_eq_resume (by rw [Graph.code_linked, hnew.empty])
      simp only [if_true, Bool.true_and]
      rw [hstart, heq₂, heq₃, hentered, hregs₁ k hk, hs' k rfl]

/-- Compare the receiver, and the key where there is one, against a probe. -/
theorem makes_probe {p : Probe} (hs : Site ⟨g, c⟩) (hmiss : g.Blank miss) (hapart : miss ≠ c)
    (hshape : shape.index < g.instrs.size) (hkey : ∀ k ∈ key, k.index < g.instrs.size) :
    Makes (probeBody shape key p) ⟨g, c⟩
      fun _ b' => Onward g miss b' ∧ b'.graph.Blank b'.current ∧ ProbeRuns g c shape key p b' := by
  refine .step newBlock_apply (.step newBlock_apply ?_)
  rw [Graph.addBlock_blocks_size]
  refine makes_compare hs.addBlock.addBlock shape (.weak p.shape) ?_
  cases key with
  | none => exact makes_unkeyed hs hmiss hapart hshape (by simp)
  | some k =>
    cases hp : p.key with
    | none => exact makes_unkeyed hs hmiss hapart hshape fun _ => hp
    | some w => exact makes_keyed hs hmiss hapart hshape (hkey k rfl) hp

/-- The code of all probes answers the slot of the first one that fits; if none does, it goes on where
the builder has come to. -/
theorem makes_probes (probes : List Probe) : ∀ {g : Graph} {c : BlockId}, Site ⟨g, c⟩ → g.Blank miss → miss ≠ c →
    shape.index < g.instrs.size → (∀ k ∈ key, k.index < g.instrs.size) →
    Makes (probes.forM (probeBody shape key)) ⟨g, c⟩ fun _ b' => Onward g miss b' ∧ ∃ ids : Probe → InstrId,
      ∀ (V ε σ : Type) (W : World V ε σ) (q : Query V ε σ) (G : Graph), b'.graph.Completes G →
        G.Only Dispatches → Poses W q G → Reach G c →
        (∀ p ∈ probes, q.slot p.slot (W.const (ids p) 0 (.smi p.slot))) ∧ Reach G b'.current ∧
        ∀ jumps (s : Progress V), (∀ k ∈ key, s.regs k = q.key) → ∃ s' jumps', jumps ≤ jumps' ∧
          resume W G (jumps + 2 * probes.length) ⟨g, c⟩ s =
            match probes.find? (q.fits key.isSome (s.regs shape)) with
            | some p => pure (W.const (ids p) 0 (.smi p.slot))
            | none => resume W G jumps' b' s' := by
  induction probes with
  | nil =>
    intro g c hs hmiss hapart _ _
    exact .pure ⟨⟨hs, .refl g, le_rfl, hmiss, hapart⟩, fun _ => default, fun V ε σ W q G _ _ _ hreach =>
      ⟨by simp, hreach, fun jumps s _ => ⟨s, jumps, le_rfl, rfl⟩⟩⟩
  | cons p rest ih =>
    intro g c hs hmiss hapart hshape hkey
    refine (makes_probe hs hmiss hapart hshape hkey).bind ?_
    rintro _ ⟨g₁, c₁⟩ ⟨h₁, hblank, id, hfirst⟩
    have hle := h₁.instrs
    refine (ih h₁.site h₁.blank h₁.apart (hshape.trans_le hle) fun k hk => (hkey k hk).trans_le hle).mono ?_
    rintro _ b' ⟨h₂, ids, hrest⟩
    refine ⟨⟨h₂.site, h₁.completes.trans h₂.completes, hle.trans h₂.instrs, h₂.blank, h₂.apart⟩,
      fun p' => if p' = p then id else ids p', fun V ε σ W q G hG honly hposes hreach => ?_⟩
    obtain ⟨hslot, hreach₁, hruns⟩ := hfirst V ε σ W q G (h₂.completes.trans hG) honly hposes hreach
    obtain ⟨hslots, hreach₂, hruns'⟩ := hrest V ε σ W q G hG honly hposes hreach₁
    refine ⟨fun p' hp' => ?_, hreach₂, fun jumps s hs' => ?_⟩
    · by_cases heq : p' = p
      · subst heq
        simpa using hslot
      · simpa [heq] using hslots p' ((List.mem_cons.mp hp').resolve_left heq)
    obtain ⟨s₁, jumps₁, hregs, hjumps, heq⟩ := hruns (jumps + 2 * rest.length) s hs'
    obtain ⟨s₂, jumps₂, hjumps₂, heq₂⟩ := hruns' (jumps₁ - 2 * rest.length) s₁ fun k hk => by
      rw [hregs k (hkey k hk), hs' k hk]
    rw [Nat.sub_add_cancel (by omega), hregs shape hshape] at heq₂
    refine ⟨s₂, jumps₂, by omega, ?_⟩
    rw [List.length_cons, show jumps + 2 * (rest.length + 1) = jumps + 2 * rest.length + 2 by omega, heq,
      List.find?_cons]
    cases hfits : q.fits key.isSome (s.regs shape) p with
    | true => simp
    | false =>
      simp only [Bool.false_eq_true, if_false]
      rw [heq₂]
      cases hfind : rest.find? (q.fits key.isSome (s.regs shape)) with
      | none => rfl
      | some p' =>
        have hne : p' ≠ p := by
          rintro rfl
          simp [List.find?_some hfind] at hfits
        simp [hne]

/-- Whether an instruction goes on to the miss stub. -/
def Misses (j : Instr) : Prop := j.op = .prim .tailCall ∧ j.inputs = [.const (.stub Stub.missStub)]

/-- A builder of dispatch code that is done, and has a block for what no probe knows. -/
structure Ended (miss : BlockId) (b : Builder) : Prop extends Site b where
  misses : ∃ j ∈ b.graph.code miss, Misses j

/-- The end of dispatch code: what no probe knows goes to the miss stub. -/
theorem makes_miss (hs : Site ⟨g, c⟩) (hmiss : g.Blank miss) (hapart : miss ≠ c) :
    Makes (do
      jump miss
      switchTo miss
      discard (emit .tailCall [.const (.stub Stub.missStub)])) ⟨g, c⟩ fun _ b' => Ended miss b' ∧ g.Completes b'.graph ∧
        ∀ (V ε σ : Type) (W : World V ε σ) (q : Query V ε σ) (G : Graph), b'.graph.Completes G →
          G.Only Dispatches → Poses W q G → Reach G c → ∀ jumps s, W.runAt G (jumps + 1) miss s = q.missed ∧
            resume W G (jumps + 1) ⟨g, c⟩ s = q.missed := by
  have hs₁ := hs.linked [miss] hmiss.toOpen hapart
  have hs₂ := hs₁.emit .tailCall [.const (.stub Stub.missStub)] (by simp)
  have hcomplete := Graph.completes_appended hs₁.listed hs₁.opened (.prim .tailCall)
    [.const (.stub Stub.missStub)]
  have hmem : (g.linked c [miss]).newInstr miss (.prim .tailCall) [.const (.stub Stub.missStub)] ∈
      (appended (g.linked c [miss]) miss (.prim .tailCall) [.const (.stub Stub.missStub)]).code miss := by
    rw [hs₁.listed.code_appended_self hs₁.opened.inside]
    simp
  refine .step (jump_apply miss hs.opened.inside) (.step (switchTo_apply miss)
    ⟨(), _, discard_emit_apply .tailCall _ hs₁.opened.inside, ⟨hs₂, _, hmem, rfl, rfl⟩,
      (Graph.completes_linked hs.opened _).trans hcomplete, ?_⟩)
  intro V ε σ W q G hG honly hposes hreach jumps
  have hG₁ := hcomplete.trans hG
  have hmissed : ∀ s, W.runAt G (jumps + 1) miss s = q.missed := by
    intro s
    have hstart : W.runAt G (jumps + 1) miss s = resume W G jumps ⟨g.linked c [miss], miss⟩ s :=
      runAt_eq_resume (by rw [Graph.code_linked, hmiss.empty])
    rw [hstart, resume_tailCall hs₁.listed hs₁.opened.inside hG,
      ← hposes.missed miss (hreach.tail (edge_linked (by simp) hs.opened.inside hG₁)) _
        ((hG.code miss).subset hmem) rfl rfl]
    rfl
  exact fun s => ⟨hmissed s, (resume_linked (by simp) hs.opened.inside hG₁).trans (hmissed _)⟩

/-- The part of dispatch code for receivers that are heap objects. -/
theorem makes_lookup (hs : Site ⟨g, c⟩) (hmiss : g.Blank miss) (hapart : miss ≠ c) (object : InstrId)
    (hkey : ∀ k ∈ key, k.index < g.instrs.size) (probes : List Probe) :
    Makes (do
      let shape ← read object Layout.shape
      probes.forM (probeBody shape key)
      jump miss
      switchTo miss
      discard (emit .tailCall [.const (.stub Stub.missStub)])) ⟨g, c⟩ fun _ b' => Ended miss b' ∧
        g.Completes b'.graph ∧ ∃ ids : Probe → InstrId,
        ∀ (V ε σ : Type) (W : World V ε σ) (q : Query V ε σ) (G : Graph), b'.graph.Completes G →
          G.Only Dispatches → Poses W q G → Reach G c →
          (∀ p ∈ probes, q.slot p.slot (W.const (ids p) 0 (.smi p.slot))) ∧
          (∀ jumps s, W.runAt G (jumps + 1) miss s = q.missed) ∧
          ∀ jumps (s : Progress V), s.regs object = q.object → (∀ k ∈ key, s.regs k = q.key) →
            resume W G (jumps + 2 * probes.length + 1) ⟨g, c⟩ s = (do
              let shape ← q.shape
              match probes.find? (q.fits key.isSome shape) with
              | some p => return W.const (ids p) 0 (.smi p.slot)
              | none => q.missed) := by
  have hs₁ := hs.emit .read [.value object, raw Layout.shape] (by simp)
  have hcomplete := Graph.completes_appended hs.listed hs.opened (.prim .read) [.value object, raw Layout.shape]
  have hold : ∀ {id : InstrId}, id.index < g.instrs.size → id ≠ ⟨g.instrs.size⟩ := by
    rintro id hid rfl
    exact lt_irrefl _ hid
  refine .step (emit_apply .read _ hs.opened.inside) ((makes_probes probes hs₁ (hmiss.appended hs.listed hapart)
    hapart (by simp) fun k hk => (hkey k hk).trans (by simp)).bind ?_)
  rintro _ ⟨g₁, c₁⟩ ⟨h₁, ids, hprobes⟩
  refine (makes_miss h₁.site h₁.blank h₁.apart).mono ?_
  rintro _ b' ⟨hended, hcomplete₁, hends⟩
  refine ⟨hended, (hcomplete.trans h₁.completes).trans hcomplete₁, ids, fun V ε σ W q G hG honly hposes hreach => ?_⟩
  have hG₁ := hcomplete₁.trans hG
  obtain ⟨hslots, hreach₁, hruns⟩ := hprobes V ε σ W q G hG₁ honly hposes hreach
  have hmissed := hends V ε σ W q G hG honly hposes hreach₁
  refine ⟨hslots, fun jumps s => (hmissed jumps s).1, fun jumps s hobj hk => ?_⟩
  have hact := hposes.shape (g.newInstr c (.prim .read) [.value object, raw Layout.shape])
    (W.values s (g.newInstr c (.prim .read) [.value object, raw Layout.shape])) rfl rfl
    (by simpa [World.values, Graph.newInstr] using hobj)
  rw [resume_value hs.listed hs.opened.inside rfl (by simp) (h₁.completes.trans hG₁), hact]
  refine bind_congr fun shape => ?_
  obtain ⟨s₁, jumps₁, hjumps, heq⟩ := hruns (jumps + 1) (s.setReg ⟨g.instrs.size⟩ shape) fun k hk' => by
    simp [Progress.setReg, hold (hkey k hk'), hk k hk']
  rw [show jumps + 2 * probes.length + 1 = jumps + 1 + 2 * probes.length by omega, heq,
    show (s.setReg ⟨g.instrs.size⟩ shape).regs ⟨g.instrs.size⟩ = shape from if_pos rfl]
  split
  · rfl
  · obtain ⟨jumps₁, rfl⟩ : ∃ k, jumps₁ = k + 1 := ⟨jumps₁ - 1, by omega⟩
    exact (hmissed jumps₁ s₁).2

end

/-- The graph with the first block of dispatch code, which looks whether the object is a small integer, and
the blocks for both cases. -/
def entered (g : Graph) : Graph :=
  (appended (appended g ⟨0⟩ (.prim .cacheArg) [raw 0]).addBlock.2 ⟨0⟩ (.prim .isSmi)
    [.value ⟨g.instrs.size⟩]).addBlock.2.linked ⟨0⟩ [⟨g.blocks.size⟩, ⟨g.blocks.size + 1⟩]

/-- What is known of the first block of dispatch code. -/
structure Entered (g : Graph) : Prop where
  site : Site ⟨entered g, ⟨g.blocks.size + 1⟩⟩
  miss : (entered g).Blank ⟨g.blocks.size⟩
  heapObject : (entered g).code ⟨g.blocks.size + 1⟩ = []
  edges : ∀ G, (entered g).Completes G → ∀ t ∈ [(⟨g.blocks.size⟩ : BlockId), ⟨g.blocks.size + 1⟩], G.Edge ⟨0⟩ t
  runs : ∀ (V ε σ : Type) (W : World V ε σ) (q : Query V ε σ) (G : Graph), (entered g).Completes G →
    G.Only Dispatches → Poses W q G → ∀ jumps s, ∃ s' : Progress V,
      s'.regs ⟨g.instrs.size⟩ = q.object ∧ W.runAt G (jumps + 1) ⟨0⟩ s =
        W.runAt G jumps (if q.small then ⟨g.blocks.size⟩ else ⟨g.blocks.size + 1⟩) s'

theorem Site.enter {g : Graph} (hs : Site ⟨g, ⟨0⟩⟩) (hempty : g.code ⟨0⟩ = []) : Entered g := by
  have hlt := hs.opened.inside
  have hs₁ := hs.emit .cacheArg [raw 0] (by simp)
  have hs₂ := hs₁.addBlock
  have hs₃ := hs₂.emit .isSmi [.value ⟨g.instrs.size⟩] (by simp)
  have hs₄ := hs₃.addBlock
  have hmiss₂ := Graph.blank_new (appended g ⟨0⟩ (.prim .cacheArg) [raw 0])
  have hheap₄ := Graph.blank_new (appended (appended g ⟨0⟩ (.prim .cacheArg) [raw 0]).addBlock.2 ⟨0⟩ (.prim .isSmi)
    [.value ⟨g.instrs.size⟩])
  simp only [appended_blocks_size, Graph.addBlock_blocks_size] at hmiss₂ hheap₄
  have hmissNe : (⟨g.blocks.size⟩ : BlockId) ≠ ⟨0⟩ := fun heq => by
    have := congrArg BlockId.index heq
    simp only at this hlt
    omega
  have hheapNe : (⟨g.blocks.size + 1⟩ : BlockId) ≠ ⟨0⟩ := by simp
  have hcomplete₃ := (Graph.completes_appended hs₂.listed hs₂.opened (.prim .isSmi)
    [.value ⟨g.instrs.size⟩]).trans (Graph.completes_addBlock.trans
      (Graph.completes_linked hs₄.opened [⟨g.blocks.size⟩, ⟨g.blocks.size + 1⟩]))
  refine ⟨hs₄.linked _ hheap₄.toOpen hheapNe, ((hmiss₂.appended hs₂.listed hmissNe).addBlock).linked hmissNe,
    (Graph.code_linked).trans hheap₄.empty, fun G hG t ht => edge_linked ht hs₄.opened.inside hG,
    fun V ε σ W q G hG honly hposes jumps s => ?_⟩
  have hG₃ := Graph.completes_addBlock.trans ((Graph.completes_linked hs₄.opened _).trans hG)
  have hG₁ := Graph.completes_addBlock.trans (hcomplete₃.trans hG)
  have hstart : W.runAt G (jumps + 1) ⟨0⟩ s = resume W G jumps ⟨g, ⟨0⟩⟩ s := runAt_eq_resume hempty
  have htest : ∀ i : Instr, i.op = .prim .isSmi → i.inputs = [.value ⟨g.instrs.size⟩] →
      W.test i (W.values (s.setReg ⟨g.instrs.size⟩ q.object) i) = pure q.small := fun i hop hi =>
    hposes.small i _ hop (by simp [World.values, hi, Progress.setReg])
  refine ⟨W.enter G { s.setReg ⟨g.instrs.size⟩ q.object with condition := some q.small }
    (if q.small then ⟨g.blocks.size⟩ else ⟨g.blocks.size + 1⟩), ?_, ?_⟩
  · rw [enter_regs (parameters_of_only honly _)]
    exact if_pos rfl
  · rw [hstart, resume_value hs.listed hs.opened.inside rfl (by simp) hG₁, hposes.object _ _ rfl rfl, pure_bind,
      ← resume_addBlock, resume_test hs₂.listed hs₂.opened.inside rfl (htest _ rfl rfl) hG₃, ← resume_addBlock]
    exact resume_branch rfl hs₄.opened.inside hG

/-- What an inline cache answers about a receiver that is a heap object. -/
def Query.found {V ε σ : Type} (q : Query V ε σ) (kind : CacheKind) (probes : List Probe) (slot : Probe → V) :
    EStateM ε σ V :=
  if probes = [] then q.missed
  else do
    let shape ← q.shape
    match probes.find? (q.fits (kind = .normal) shape) with
    | some p => return slot p
    | none => q.missed

/-- The code for receivers that are heap objects, and what it needs of the rest. -/
def LooksUp (g : Graph) (kind : CacheKind) (probes : List Probe) (b' : Builder) : Prop :=
  Ended ⟨g.blocks.size⟩ b' ∧ (entered g).Completes b'.graph ∧ ∃ ids : Probe → InstrId,
    ∀ (V ε σ : Type) (W : World V ε σ) (q : Query V ε σ) (G : Graph), b'.graph.Completes G → G.Only Dispatches →
      Poses W q G → Reach G ⟨g.blocks.size + 1⟩ →
      (∀ p ∈ probes, q.slot p.slot (W.const (ids p) 0 (.smi p.slot))) ∧
      (∀ jumps s, W.runAt G (jumps + 1) ⟨g.blocks.size⟩ s = q.missed) ∧
      ∀ jumps (s : Progress V), s.regs ⟨g.instrs.size⟩ = q.object →
        W.runAt G (jumps + 2 * probes.length + 2) ⟨g.blocks.size + 1⟩ s =
          q.found kind probes fun p => W.const (ids p) 0 (.smi p.slot)

/-- Dispatch code answers what the query asks for. -/
def Dispatched (kind : CacheKind) (probes : List Probe) (g : Graph) : Prop :=
  ∃ ids : Probe → InstrId, ∀ (V ε σ : Type) (W : World V ε σ) (q : Query V ε σ), Poses W q g →
    (∀ p ∈ probes, q.slot p.slot (W.const (ids p) 0 (.smi p.slot))) ∧
    ∀ jumps, W.run g (jumps + 2 * probes.length + 3) =
      if q.small then q.missed else q.found kind probes fun p => W.const (ids p) 0 (.smi p.slot)

theorem Entered.finish {g : Graph} (h : Entered g) {kind : CacheKind} {probes : List Probe} {b' : Builder}
    (hlooks : LooksUp g kind probes b') : Site b' ∧ (∃ b, Reach b'.graph b ∧ ∃ j ∈ b'.graph.code b, Misses j) ∧
      Dispatched kind probes b'.graph := by
  obtain ⟨⟨hsite, hmisses⟩, hcomplete, ids, hruns⟩ := hlooks
  have hreach : ∀ t ∈ [(⟨g.blocks.size⟩ : BlockId), ⟨g.blocks.size + 1⟩], Reach b'.graph t := fun t ht =>
    .single (h.edges _ hcomplete t ht)
  refine ⟨hsite, ⟨_, hreach _ (by simp), hmisses⟩, ids, fun V ε σ W q hposes => ?_⟩
  have hentry := h.runs V ε σ W q _ hcomplete hsite.only hposes
  obtain ⟨hslots, hmissed, hfound⟩ := hruns V ε σ W q _ (.refl _) hsite.only hposes (hreach _ (by simp))
  refine ⟨hslots, fun jumps => ?_⟩
  obtain ⟨s', hobject, heq⟩ := hentry (jumps + 2 * probes.length + 2) { regs := fun _ => W.blank }
  rw [World.run, heq]
  cases q.small with
  | true => exact hmissed _ s'
  | false => exact hfound jumps s' hobject

theorem makes_dispatch (kind : CacheKind) (probes : List Probe) : Makes (dispatchBody kind probes)
    (Builder.start kind.name) fun _ b' => Site b' ∧ (∃ b, Reach b'.graph b ∧ ∃ j ∈ b'.graph.code b, Misses j) ∧
      Dispatched kind probes b'.graph := by
  have hs : Site (Builder.start kind.name) :=
    ⟨Graph.listed_start _, ⟨by simp [Builder.start, Graph.addBlock], rfl⟩, Graph.only_start _⟩
  have hentry : (Builder.start kind.name).current = ⟨0⟩ := rfl
  have hempty : (Builder.start kind.name).graph.code (Builder.start kind.name).current = [] := rfl
  generalize Builder.start kind.name = start at hs hentry hempty
  obtain ⟨g, c⟩ := start
  obtain rfl : c = ⟨0⟩ := hentry
  have h := hs.enter hempty
  have hlt := hs.opened.inside
  have hs₁ := hs.emit .cacheArg [raw 0] (by simp)
  have hs₃ := hs₁.addBlock.emit .isSmi [.value ⟨g.instrs.size⟩] (by simp)
  have hapart : (⟨g.blocks.size⟩ : BlockId) ≠ ⟨g.blocks.size + 1⟩ := by simp
  have hinstrs : (entered g).instrs.size = g.instrs.size + 2 := by simp [entered]
  refine .step (emit_apply .cacheArg [raw 0] hlt) (.step newBlock_apply
    (.step (discard_emit_apply .isSmi _ hs₁.addBlock.opened.inside) (.step newBlock_apply ?_)))
  simp only [appended_blocks_size, Graph.addBlock_blocks_size]
  refine .step (branch_apply _ _ hs₃.addBlock.opened.inside) (.step (switchTo_apply _) ?_)
  refine Makes.mono ?_ fun _ b' hlooks => h.finish hlooks
  change Makes _ ⟨entered g, _⟩ _
  cases probes with
  | nil =>
    rw [if_pos (by simp)]
    refine (makes_miss h.site h.miss hapart).mono ?_
    rintro _ b' ⟨hsite, hcomplete, hends⟩
    refine ⟨hsite, hcomplete, fun _ => default, fun V ε σ W q G hG honly hposes hreach => ?_⟩
    have hmissed := hends V ε σ W q G hG honly hposes hreach
    refine ⟨by simp, fun jumps s => (hmissed jumps s).1, fun jumps s _ => ?_⟩
    rw [runAt_eq_resume h.heapObject]
    exact (hmissed jumps s).2
  | cons p rest =>
    rw [if_neg (by simp)]
    cases kind with
    | normal =>
      have hs₆ := h.site.emit .cacheArg [raw 1] (by simp)
      have hcomplete := Graph.completes_appended h.site.listed h.site.opened (.prim .cacheArg) [raw 1]
      have hkeyed : (some <$> cacheArg 1 : BuildM _) ⟨entered g, ⟨g.blocks.size + 1⟩⟩ = .ok
          (some ⟨(entered g).instrs.size⟩) ⟨appended (entered g) ⟨g.blocks.size + 1⟩ (.prim .cacheArg) [raw 1],
            ⟨g.blocks.size + 1⟩⟩ :=
        map_eq_ok.mpr ⟨_, emit_apply .cacheArg [raw 1] h.site.opened.inside, rfl⟩
      refine .step hkeyed ((makes_lookup hs₆ (h.miss.appended h.site.listed hapart) hapart ⟨g.instrs.size⟩
        (by simp) (p :: rest)).mono ?_)
      rintro _ b' ⟨hsite, hcomplete', ids, hruns⟩
      refine ⟨hsite, hcomplete.trans hcomplete', ids, fun V ε σ W q G hG honly hposes hreach => ?_⟩
      obtain ⟨hslots, hmissed, hfound⟩ := hruns V ε σ W q G hG honly hposes hreach
      refine ⟨hslots, hmissed, fun jumps s hobject => ?_⟩
      have hne : (⟨g.instrs.size⟩ : InstrId) ≠ ⟨(entered g).instrs.size⟩ := by simp [hinstrs]
      rw [runAt_eq_resume h.heapObject, resume_value h.site.listed h.site.opened.inside rfl (by simp)
        (hcomplete'.trans hG), hposes.key _ _ rfl rfl, pure_bind]
      refine (hfound jumps _ ((if_neg hne).trans hobject) fun k hk => ?_).trans rfl
      cases hk
      exact if_pos rfl
    | fixed =>
      refine .step rfl ((makes_lookup h.site h.miss hapart ⟨g.instrs.size⟩ (by simp) (p :: rest)).mono ?_)
      rintro _ b' ⟨hsite, hcomplete, ids, hruns⟩
      refine ⟨hsite, hcomplete, ids, fun V ε σ W q G hG honly hposes hreach => ?_⟩
      obtain ⟨hslots, hmissed, hfound⟩ := hruns V ε σ W q G hG honly hposes hreach
      refine ⟨hslots, hmissed, fun jumps s hobject => ?_⟩
      rw [runAt_eq_resume h.heapObject, hfound jumps s hobject (by simp)]
      rfl

/-! ### Dispatch code in the machine -/

/-- What the machine asks dispatch code in an activation, if the miss stub has this function. -/
def machineQuery (call : Caller) (self : Activation) (miss : Word) : Query Word RunError Engine where
  object := Machine.argumentAt self.args 0
  key := Machine.argumentAt self.args 1
  small := (Machine.argumentAt self.args 0).isSmi
  shape := Machine.load (Machine.addressAt (Machine.argumentAt self.args 0) (Emission.fieldOffset Layout.shape))
  is v w := v == w
  slot n w := ∀ v ∈ Word.ofSmi? n, w = v
  missed := Machine.callFunction call miss self

theorem poses_machineWorld {nested : Array (Option Word)} {e : Engine} {g : Graph} {words : InstrId → Nat → Word}
    {log : List (Const × Word)} {miss : Stub} (hstands : ∀ c w, (c, w) ∈ log → Stands nested e c w)
    (hmiss : e.stubs.compiled? Stub.missStub = some miss) (hnamed : ∀ b, Reach g b → AllNamed (g.code b) words log)
    (call : Caller) (self : Activation) :
    Poses (machineWorld words call self) (machineQuery call self miss.function) g := by
  have hword : ∀ b, Reach g b → ∀ j ∈ g.code b, ∀ op, j.op = .prim op → op.roles[0]? = some .operand →
      ∀ c, j.inputs = [.const c] → Stands nested e c (words j.id 0) := fun b hb j hj op hop hrole c hc =>
    hstands _ _ (hnamed b hb j hj op hop 0 c (.inl hrole) (by simp [Instr.constAt?, hc]))
  refine ⟨fun i x hop hi => ?_, fun i x hop hi => ?_, fun i x hop hx => ?_, fun i x hop hraw hx => ?_,
    fun b hb j hj w hop c hc hi i x hop' hcond hx => ?_, fun b hb j hj n hop hi => ?_, fun b hb j hj hop hi => ?_⟩
  · simp [machineWorld, Instr.action, hop, Instr.rawAt, hi, Builder.raw, Emission.offset32, machineQuery,
      Machine.perform]
  · simp [machineWorld, Instr.action, hop, Instr.rawAt, hi, Builder.raw, Emission.offset32, machineQuery,
      Machine.perform]
  · simp [machineWorld, Instr.condition, hop, Machine.holds, hx, machineQuery]
  · simp [machineWorld, Instr.action, hop, hraw, hx, machineQuery, Machine.perform]
  · have hw : words j.id 0 = w := by
      have := hword b hb j hj .literal hop rfl c hi
      simp only [List.mem_cons, List.not_mem_nil, or_false] at hc
      rcases hc with rfl | rfl <;> exact this
    have hx' : x 1 = w := hx.trans hw
    simp [machineWorld, Instr.condition, hop', hcond, hx', Machine.holds, machineQuery, Word.holds_eq]
  · exact hword b hb j hj .literal hop rfl _ hi
  · obtain ⟨s, hs, hw⟩ := hword b hb j hj .tailCall hop rfl _ hi
    obtain rfl := Option.some.inj (hs.symm.trans hmiss)
    change Machine.callFunction call (words j.id 0) self = _
    rw [hw]
    rfl

/-- Whether a probe knows a receiver of the shape; only inline caches for any key look at the key. -/
def knows (kind : CacheKind) (shape key : Word) (p : Probe) : Bool :=
  shape == p.shape && (kind != .normal || p.key.all (key == ·))

/-- The answer of an inline cache: the slot of the first probe that knows the receiver. For a small integer,
whose shape must not be looked at, or if no probe knows, the miss stub goes on with the same activation. -/
def lookup (kind : CacheKind) (probes : List Probe) (slot : Probe → Word) (miss : Word) (call : Caller)
    (self : Activation) : RunM Word := do
  let object := Machine.argumentAt self.args 0
  if object.isSmi then Machine.callFunction call miss self
  else
    let shape ← Machine.load (Machine.addressAt object (Emission.fieldOffset Layout.shape))
    match probes.find? (knows kind shape (Machine.argumentAt self.args 1)) with
    | some p => return slot p
    | none => Machine.callFunction call miss self

theorem found_machineQuery (kind : CacheKind) (probes : List Probe) (slot : Probe → Word) (call : Caller)
    (self : Activation) (miss : Word) :
    (if (machineQuery call self miss).small then (machineQuery call self miss).missed
      else (machineQuery call self miss).found kind probes slot) = lookup kind probes slot miss call self := by
  have hfits : ∀ shape, (machineQuery call self miss).fits (kind = .normal) shape =
      knows kind shape (Machine.argumentAt self.args 1) := by
    intro shape
    funext p
    cases kind <;> rfl
  have hload : ∀ (address : Nat) (x : RunM Word), (Machine.load address >>= fun _ => x) = x := fun _ _ => rfl
  unfold lookup
  by_cases hsmall : (Machine.argumentAt self.args 0).isSmi = true
  · rw [if_pos hsmall]
    exact if_pos hsmall
  · rw [if_neg hsmall]
    refine (if_neg hsmall).trans ?_
    unfold Query.found
    cases probes with
    | nil => exact (hload _ _).symm
    | cons p probes =>
      rw [if_neg (by simp)]
      simp only [hfits]
      rfl

theorem stublike_of_site {b : Builder} (h : Site b) : Stublike b.graph := by
  have hop : ∀ t, ∀ i ∈ b.graph.code t, ∃ op, i.op = .prim op ∧ op ≠ .call ∧ op ≠ .callStub ∧ op ≠ .push ∧
      op ≠ .openArea ∧ op ≠ .forward ∧ op ≠ .forwardCall := by
    intro t i hi
    obtain ⟨op, hmem, hop⟩ := h.only t i hi
    refine ⟨op, hop, ?_⟩
    simp only [List.mem_cons, List.not_mem_nil, or_false] at hmem
    rcases hmem with rfl | rfl | rfl | rfl | rfl | rfl | rfl <;> simp
  refine ⟨h.listed, fun t => ⟨⟨fun i hi => ?_, fun i hi hcall => ?_⟩, fun i hi => ?_, fun i hi => ?_⟩, fun t => ?_,
    fun t => ?_⟩
  · obtain ⟨op, hop, -, -, -, hopen, -⟩ := hop t i hi
    simpa [hop] using hopen
  · obtain ⟨op, hop, hplain, hstub, -⟩ := hop t i hi
    simp [Instr.IsCall, hop, hplain, hstub] at hcall
  · obtain ⟨op, hop, -⟩ := hop t i hi
    simp [hop, Op.isPrim]
  · obtain ⟨op, hop, hplain, -⟩ := hop t i hi
    simpa [hop] using hplain
  · refine settles_of_balance fun i hi => ?_
    obtain ⟨op, hop, hplain, hstub, hpush, -⟩ := hop t i hi
    exact Instr.balance_idle (by simpa [hop] using hpush) (by simp [Instr.IsCall, hop, hplain, hstub])
  · have hkeep : ∀ code : List Instr, (∀ i ∈ code, forwardsAfter false i = false) →
        code.foldl forwardsAfter false = false := by
      intro code hcode
      induction code with
      | nil => rfl
      | cons i code ih =>
        rw [List.foldl_cons, hcode i (by simp)]
        exact ih fun j hj => hcode j (by simp [hj])
    refine hkeep _ fun i hi => ?_
    obtain ⟨op, hop, -, -, -, -, hforward, hforwardCall⟩ := hop t i hi
    simp [forwardsAfter, hop, hforward]

/-- Dispatch code, which lowering leaves as it is, finds the first probe that knows the receiver, in every
world and in the machine. -/
theorem dispatch_finds_first (kind : CacheKind) (probes : List Probe) : ∃ g,
    dispatchGraph kind probes = .ok g ∧ (Lowering.lower g).error = none ∧ (Lowering.lower g).graph = g ∧
      Dispatched kind probes g ∧
      ∀ (nesting : Nat) (nested : Array (Option Word)) (scope : EmissionScope) (e e' : Engine) (program : Program)
        (record : CodeRecord), scope.graph = (Lowering.lower g).graph →
        scope.resolve = resolve (compileNested nesting) nested → emitProgram scope e = .ok (program, record) e' →
        ∃ (miss : Stub) (slot : Probe → Word), e'.stubs.compiled? Stub.missStub = some miss ∧
          (∀ p ∈ probes, ∀ w ∈ Word.ofSmi? p.slot, slot p = w) ∧ ∀ call self jumps,
            Machine.runFrom call program self (jumps + 2 * probes.length + 3) ⟨0⟩ ∅ =
              lookup kind probes slot miss.function call self := by
  obtain ⟨_, ⟨g, c⟩, hrun, hsite, ⟨b, hb, j, hj, hmiss⟩, hdispatched⟩ := makes_dispatch kind probes
  have hbuild : dispatchGraph kind probes = .ok g := by
    unfold dispatchGraph build
    rw [EStateM.run, hrun]
  have hstublike := stublike_of_site hsite
  have hidle : ∀ t, ∀ i ∈ g.code t, Lowering.Idle i := fun t i hi => by
    obtain ⟨op, hmem, hop⟩ := hsite.only t i hi
    simp only [List.mem_cons, List.not_mem_nil, or_false] at hmem
    rcases hmem with rfl | rfl | rfl | rfl | rfl | rfl | rfl
    all_goals exact Lowering.idle_of_op hop (by simp) (by simp) (by simp)
  obtain ⟨hlower, hsame⟩ := Lowering.lower_idle hsite.listed (fun t => (hstublike.primitive t).prim) hidle
  refine ⟨g, hbuild, hlower, hsame, hdispatched, fun nesting nested scope e e' program record hg hr hemit => ?_⟩
  obtain ⟨words, log, hanswered, hnamed, hmachine⟩ := hstublike.emitProgram_runs hg hemit
  rw [hr] at hanswered
  have hstands := hanswered.stands
  obtain ⟨miss, hcompiled, -⟩ := hstands (.stub Stub.missStub) (words j.id 0)
    (hnamed b hb j hj .tailCall hmiss.1 0 _ (.inl rfl) (by simp [Instr.constAt?, hmiss.2]))
  obtain ⟨ids, hruns⟩ := hdispatched
  have hposes := poses_machineWorld hstands hcompiled hnamed
  refine ⟨miss, fun p => words (ids p) 0, hcompiled,
    (hruns _ _ _ _ _ (hposes (fun _ _ => pure default) default)).1, fun call self jumps => ?_⟩
  rw [hmachine, (hruns _ _ _ _ _ (hposes call self)).2 jumps, ← found_machineQuery]
  rfl

/-- An engine that has compiled nothing but the miss stub. -/
def missing : Engine :=
  { stubs := { compiled := (∅ : Std.TreeMap String Stub).insert Stub.missStub ⟨.pointer 64, .pointer 96⟩ } }

/-- A probe for a key in objects of one shape. -/
def remembered : Probe := { shape := .pointer 32, key := some (.pointer 48), slot := 3 }

theorem emits_of_succeeds {built : Except GraphError Graph} {g : Graph} {start : Engine}
    (hbuild : built = .ok g)
    (h : built.toOption.any (fun g => succeeds (emitProgram (scopeOf g) start)) = true) :
    ∃ r e', emitProgram (scopeOf g) start = .ok r e' := by
  rw [hbuild] at h
  exact succeeds_iff.mp h

theorem dispatch_finds_first_remembered : ∃ g program record e' miss slot,
    dispatchGraph .normal [remembered] = .ok g ∧
      emitProgram (scopeOf g) missing =
        .ok (program, record) e' ∧ slot remembered = .smi 3 ∧
      ∀ call self, Machine.runFrom call program self 5 ⟨0⟩ ∅ =
        lookup .normal [remembered] slot miss call self := by
  obtain ⟨g, hbuild, -, -, -, hmachine⟩ := dispatch_finds_first .normal [remembered]
  obtain ⟨⟨program, record⟩, e', hemit⟩ : ∃ r e', emitProgram (scopeOf g) missing = .ok r e' :=
    emits_of_succeeds hbuild (by decide +kernel)
  obtain ⟨miss, slot, -, hslot, hruns⟩ := hmachine 0 #[] _ _ _ _ _ rfl rfl hemit
  exact ⟨g, program, record, e', miss.function, slot, hbuild, hemit, hslot remembered (by simp) _ rfl,
    fun call self => hruns call self 0⟩

end InlineCache
end ScriptEngine
