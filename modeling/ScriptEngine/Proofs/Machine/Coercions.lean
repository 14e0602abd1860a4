import ScriptEngine.Proofs.Machine.Allocation

/-!
Stubs that ask what a value is: whether it is true in a condition, and whether it can be called. They answer
by tags, by identity and by a bit of the flags word, where the heap decodes the value; the answers are the same.
-/

namespace ScriptEngine

open State Builder

/-! ### Code of the stubs -/

def truthRows : List Row :=
  [(.stubArg, [raw 0], 0), (.isSmi, [.value ⟨0⟩], 0),
    (.compareSmi, [.value ⟨0⟩, Stub.smi 0, .const (.cond .eq)], 4),
    (.literal, [.const (.bool true)], 5), (.comparePointer, [.value ⟨0⟩, .value ⟨3⟩, .const (.cond .eq)], 5),
    (.literal, [.const (.bool false)], 6), (.comparePointer, [.value ⟨0⟩, .value ⟨5⟩, .const (.cond .eq)], 6),
    (.ret, [.value ⟨0⟩], 3),
    (.literal, [.const (.bool true)], 1), (.ret, [.value ⟨8⟩], 1),
    (.literal, [.const (.bool false)], 2), (.ret, [.value ⟨10⟩], 2)] ++
  (hostRows "coerce/boolean" [⟨0⟩] 12 7).concat (.ret, [.value ⟨15⟩], 7)

def truthGraph : Graph :=
  .ofRows "coerce/boolean" truthRows [[⟨4⟩, ⟨5⟩], [], [], [], [⟨2⟩, ⟨1⟩], [⟨3⟩, ⟨6⟩], [⟨3⟩, ⟨7⟩], []]

theorem build_truth : build "coerce/boolean" Stub.truthBody = .ok truthGraph := by cbv

def notRows : List Row :=
  [(.stubArg, [raw 0], 0), (.push, [.value ⟨0⟩], 0), (.callStub, [.const (.stub "coerce/boolean"), raw 1], 0),
    (.isTrue, [.value ⟨2⟩], 0),
    (.literal, [.const (.bool false)], 1), (.ret, [.value ⟨4⟩], 1),
    (.literal, [.const (.bool true)], 2), (.ret, [.value ⟨6⟩], 2)]

def notGraph : Graph := .ofRows "unary/!" notRows [[⟨1⟩, ⟨2⟩], [], []]

theorem build_not : build "unary/!" Stub.notBody = .ok notGraph := by cbv

theorem stublike_truth : Engine.Stublike truthGraph := Engine.StubRows.stublike (by decide +kernel)
theorem stublike_not : Engine.Stublike notGraph := Engine.StubRows.stublike (by decide +kernel)
namespace Engine

open Machine (argumentAt callFunction enter maxJumps)
open Meaning (Progress)

/-! ### Runs -/

section

variable {words : InstrId → Nat → Word} {call : Caller} {self : Activation}

theorem runCode_isTrue {id a : InstrId} {b : BlockId} {rest : List Instr} {s : Progress Word} :
    (machineWorld words call self).runCode (⟨id, .prim .isTrue, [.value a], b⟩ :: rest) s =
      (machineWorld words call self).runCode rest (s.tested (Cond.eq.holds (s.regs a) (words id 1))) := rfl

/-- What the coercion answers, by the tag and the identity of the value. -/
theorem truth_runs (jumps : Nat) : (machineWorld words call self).run truthGraph (jumps + 4) =
    let v := argumentAt self.args 0
    if v.isSmi then pure (if v = words ⟨2⟩ 1 then words ⟨10⟩ 0 else words ⟨8⟩ 0)
    else if v = words ⟨3⟩ 0 ∨ v = words ⟨5⟩ 0 then pure v
    else askHost call (words ⟨15⟩ 0) (words ⟨13⟩ 0) (words ⟨15⟩ 2) [v] := by
  have hparameters : ∀ b, truthGraph.parameters b = [] := Graph.parameters_ofRows (by decide)
  have hcode : ∀ k < 8, truthGraph.code ⟨k⟩ = (number 0 truthRows).filter (·.block = ⟨k⟩) := fun k hk =>
    Graph.code_ofRows hk
  have hnext : ∀ k (hk : k < 8), truthGraph.successors ⟨k⟩ =
      [[⟨4⟩, ⟨5⟩], [], [], [], [⟨2⟩, ⟨1⟩], [⟨3⟩, ⟨6⟩], [⟨3⟩, ⟨7⟩], []][k] := fun k hk => Graph.successors_ofRows hk
  have hsmall : ∀ (jumps : Nat) (s : Progress Word), (machineWorld words call self).runAt truthGraph (jumps + 2) ⟨4⟩ s =
      pure (if s.regs ⟨0⟩ = words ⟨2⟩ 1 then words ⟨10⟩ 0 else words ⟨8⟩ 0) := by
    intro jumps s
    have hblock : (machineWorld words call self).runCode (truthGraph.code ⟨4⟩) s =
        pure (.fell (s.tested (Cond.holds .eq (s.regs ⟨0⟩) (words ⟨2⟩ 1)))) := by
      rw [hcode 4 (by decide)]
      rfl
    rw [runAt_branched hblock (hnext 4 (by decide)) rfl (hparameters _) (hparameters _), Word.holds_eq]
    by_cases hzero : s.regs ⟨0⟩ = words ⟨2⟩ 1
    · rw [if_pos hzero, beq_iff_eq.mpr hzero]
      exact runAt_returned (by rw [if_pos rfl, hcode 2 (by decide)]; rfl)
    · rw [if_neg hzero, beq_eq_false_iff_ne.mpr hzero]
      exact runAt_returned (by rw [if_neg (by simp), hcode 1 (by decide)]; rfl)
  have hasks : ∀ (jumps : Nat) (s : Progress Word), (machineWorld words call self).runAt truthGraph (jumps + 1) ⟨7⟩ s =
      askHost call (words ⟨15⟩ 0) (words ⟨13⟩ 0) (words ⟨15⟩ 2) [s.regs ⟨0⟩] := fun jumps s =>
    runAt_returned (by
      rw [hcode 7 (by decide), show (number 0 truthRows).filter (·.block = ⟨7⟩) =
        number 12 (hostRows "coerce/boolean" [⟨0⟩] 12 7) ++ [⟨⟨16⟩, .prim .ret, [.value ⟨15⟩], ⟨7⟩⟩] from rfl,
        runCode_hostRows]
      rfl)
  have hsame : ∀ (jumps : Nat) (s : Progress Word),
      (machineWorld words call self).runAt truthGraph (jumps + 1) ⟨3⟩ s = pure (s.regs ⟨0⟩) := fun jumps s =>
    runAt_returned (by rw [hcode 3 (by decide)]; rfl)
  have hboxed : ∀ (jumps : Nat) (s : Progress Word), (machineWorld words call self).runAt truthGraph (jumps + 3) ⟨5⟩ s =
      if s.regs ⟨0⟩ = words ⟨3⟩ 0 ∨ s.regs ⟨0⟩ = words ⟨5⟩ 0 then pure (s.regs ⟨0⟩)
      else askHost call (words ⟨15⟩ 0) (words ⟨13⟩ 0) (words ⟨15⟩ 2) [s.regs ⟨0⟩] := by
    intro jumps s
    have hfirst : ∀ s : Progress Word, (machineWorld words call self).runCode (truthGraph.code ⟨5⟩) s =
        pure (.fell ((s.setReg ⟨3⟩ (words ⟨3⟩ 0)).tested (Cond.holds .eq (s.regs ⟨0⟩) (words ⟨3⟩ 0)))) := fun s => by
      rw [hcode 5 (by decide)]
      rfl
    have hsecond : ∀ s : Progress Word, (machineWorld words call self).runCode (truthGraph.code ⟨6⟩) s =
        pure (.fell ((s.setReg ⟨5⟩ (words ⟨5⟩ 0)).tested (Cond.holds .eq (s.regs ⟨0⟩) (words ⟨5⟩ 0)))) := fun s => by
      rw [hcode 6 (by decide)]
      rfl
    rw [runAt_branched (hfirst s) (hnext 5 (by decide)) rfl (hparameters _) (hparameters _), Word.holds_eq]
    by_cases htrue : s.regs ⟨0⟩ = words ⟨3⟩ 0
    · rw [beq_iff_eq.mpr htrue, if_pos rfl, if_pos (Or.inl htrue)]
      exact hsame (jumps + 1) _
    generalize hs : ((s.setReg ⟨3⟩ (words ⟨3⟩ 0)).tested _).next = s'
    have hreg : s'.regs ⟨0⟩ = s.regs ⟨0⟩ := hs ▸ rfl
    rw [beq_eq_false_iff_ne.mpr htrue, if_neg Bool.false_ne_true,
      runAt_branched (hsecond s') (hnext 6 (by decide)) rfl (hparameters _) (hparameters _), Word.holds_eq, hreg]
    by_cases hfalse : s.regs ⟨0⟩ = words ⟨5⟩ 0
    · rw [beq_iff_eq.mpr hfalse, if_pos rfl, if_pos (Or.inr hfalse), ← hreg]
      exact hsame jumps _
    · rw [beq_eq_false_iff_ne.mpr hfalse, if_neg Bool.false_ne_true, if_neg (not_or.mpr ⟨htrue, hfalse⟩), ← hreg]
      exact hasks jumps _
  have hentry : ∀ s : Progress Word, (machineWorld words call self).runCode (truthGraph.code ⟨0⟩) s =
      pure (.fell ((s.setReg ⟨0⟩ (argumentAt self.args 0)).tested (argumentAt self.args 0).isSmi)) := fun s => by
    rw [hcode 0 (by decide)]
    rfl
  rw [Meaning.World.run, runAt_branched (hentry _) (hnext 0 (by decide)) rfl (hparameters _) (hparameters _)]
  simp only
  cases (argumentAt self.args 0).isSmi with
  | true =>
    rw [if_pos rfl, if_pos rfl]
    exact hsmall (jumps + 1) _
  | false =>
    rw [if_neg Bool.false_ne_true, if_neg Bool.false_ne_true]
    exact hboxed jumps _

end

/-! ### Agreement with the heap -/

variable {e t : Engine} {T : Contents} {s : Stub} {v : Word}

theorem callback_truth (events : Array Event) : callback "coerce/boolean" [v] { e with events } =
    .ok (e.heap.boolean (e.heap.truthy v)) { e with heap := e.heap, events } := rfl

/-- Truth of the values that the stub knows by itself. -/
theorem truthy_known (oddballs : Heap.Oddballs e.heap T) (laid : Laid e.heap T) :
    (∀ {n : Int}, Word.smiMin ≤ n → n ≤ Word.smiMax → e.heap.truthy (.smi n) = (n != 0)) ∧
      e.heap.truthy e.heap.trueValue = true ∧ e.heap.truthy e.heap.falseValue = false := by
  obtain ⟨_, htrue⟩ := oddballs.trueValue
  obtain ⟨_, hfalse⟩ := oddballs.falseValue
  have hdistinct := oddballs.distinct
  simp only [List.nodup_cons, List.mem_cons, List.not_mem_nil, or_false, not_or] at hdistinct
  obtain ⟨⟨-, -, hu₁, hu₂⟩, ⟨-, hn₁, hn₂⟩, ⟨hh₁, hh₂⟩, hne, -⟩ := hdistinct
  unfold Heap.truthy Heap.inspect
  refine ⟨fun hlow hhigh => by rw [Word.toSmi?_smi hlow hhigh], ?_, ?_⟩
  · rw [Heap.toSmi?_of_cell laid htrue]
    simp only [Ne.symm hu₁, Ne.symm hn₁, Ne.symm hh₁, if_false, if_true]
  · rw [Heap.toSmi?_of_cell laid hfalse]
    simp only [Ne.symm hu₂, Ne.symm hn₂, Ne.symm hh₂, Ne.symm hne, if_false, if_true]

theorem Stocked.truth_agrees (stocked : Stocked T e) (calm : e.Calm) (hs : e.stubs.compiled? "coerce/boolean" = some s)
    (depth : Nat) (self : Activation) (harg : argumentAt self.args 0 = v) : ∃ t,
      callFunction (enter (depth + 2)) s.function self e = .ok (e.heap.boolean (e.heap.truthy v)) t ∧ Noted e t e.heap := by
  obtain ⟨past, sound⟩ := stocked.sound
  obtain ⟨words, hstanding, hruns⟩ :=
    stocked.stub_runs calm hs (by simp [StubLibrary.standardSources]) build_truth stublike_truth
  obtain ⟨jumps, hjumps⟩ : ∃ jumps, maxJumps = jumps + 4 := exists_maxJumps (by decide)
  obtain ⟨hsmall, htruthy, hfalsy⟩ := truthy_known sound.typed.oddballs sound.typed.laid
  have hedge : ∀ {k t}, (∃ hk : k < 8, t ∈ [[⟨4⟩, ⟨5⟩], [], [], [], [⟨2⟩, ⟨1⟩], [⟨3⟩, ⟨6⟩], [⟨3⟩, ⟨7⟩], []][k]) →
      truthGraph.Edge ⟨k⟩ t := fun ⟨hk, ht⟩ => Graph.edge_ofRows hk ht
  have hto₄ : Relation.ReflTransGen truthGraph.Edge ⟨0⟩ ⟨4⟩ := .single (hedge ⟨by decide, by decide⟩)
  have hto₅ : Relation.ReflTransGen truthGraph.Edge ⟨0⟩ ⟨5⟩ := .single (hedge ⟨by decide, by decide⟩)
  have hto₆ := hto₅.tail (hedge (k := 5) (t := ⟨6⟩) ⟨by decide, by decide⟩)
  have hzero : words ⟨2⟩ 1 = .smi 0 := hstanding.smi rfl (by decide) hto₄ rfl rfl rfl
  obtain ⟨_, hyes⟩ := hstanding.row (k := 8) rfl (by decide) (hto₄.tail (hedge ⟨by decide, by decide⟩)) (i := 0) rfl rfl
  obtain ⟨_, hno⟩ := hstanding.row (k := 10) rfl (by decide) (hto₄.tail (hedge ⟨by decide, by decide⟩)) (i := 0) rfl rfl
  obtain ⟨_, htrue⟩ := hstanding.row (k := 3) rfl (by decide) hto₅ (i := 0) rfl rfl
  obtain ⟨_, hfalse⟩ := hstanding.row (k := 5) rfl (by decide) hto₆ (i := 0) rfl rfl
  have hslow : truthGraph.code ⟨7⟩ =
      number 12 (hostRows "coerce/boolean" [⟨0⟩] 12 7) ++ [⟨⟨16⟩, .prim .ret, [.value ⟨15⟩], ⟨7⟩⟩] :=
    Graph.code_ofRows (by decide)
  obtain ⟨host, id, hhost, hid, hfunction, hcallback, -⟩ :=
    hstanding.host (hto₆.tail (hedge (k := 6) ⟨by decide, by decide⟩)) hslow
  have hheap : e.entered.heap = e.heap := (noted_entered e).heap_eq
  rw [hruns, hjumps, Engine.truth_runs]
  simp only [harg, hzero]
  rw [show words ⟨3⟩ 0 = e.heap.trueValue from htrue, show words ⟨5⟩ 0 = e.heap.falseValue from hfalse,
    show words ⟨8⟩ 0 = e.heap.trueValue from hyes, show words ⟨10⟩ 0 = e.heap.falseValue from hno]
  cases hsmi : v.isSmi with
  | true =>
    obtain ⟨n, hlow, hhigh, rfl⟩ := Word.eq_smi hsmi
    refine ⟨_, ?_, noted_entered e⟩
    have hinj : Word.smi n = .smi 0 ↔ n = 0 := by
      refine ⟨fun h => ?_, fun h => h ▸ rfl⟩
      have hsome := Word.toSmi?_smi hlow hhigh
      rw [h, Word.toSmi?_smi (by decide) (by decide)] at hsome
      exact (Option.some.inj hsome).symm
    rw [hsmall hlow hhigh, if_pos rfl]
    by_cases hn : n = 0
    · rw [if_pos (hinj.mpr hn), hn]
      rfl
    · rw [if_neg (hn ∘ hinj.mp), show (n != 0) = true by simpa using hn]
      rfl
  | false =>
    rw [if_neg Bool.false_ne_true]
    by_cases hknown : v = e.heap.trueValue ∨ v = e.heap.falseValue
    · rw [if_pos hknown]
      refine ⟨_, ?_, noted_entered e⟩
      rcases hknown with rfl | rfl
      · rw [htruthy]
        rfl
      · rw [hfalsy]
        rfl
    · rw [if_neg hknown, show words ⟨15⟩ 0 = host.function from hfunction, show words ⟨13⟩ 0 = .smi id from hcallback]
      have hshelved : Shelved T e.entered :=
        (noted_entered e).shelved stocked.toShelved (.refl _) (hheap ▸ stocked.laid) fun h => h
      obtain ⟨t, hanswer, hnoted⟩ := callHost_heap (e := e.entered) hid callback_truth
      rw [hheap] at hanswer hnoted
      refine ⟨t, ?_, (noted_entered e).trans hnoted⟩
      have hleads := hshelved.leadsToHost (by rw [(noted_entered e).stubs_eq]; exact hhost)
      exact (askHost_eq hleads (by simp) depth).trans hanswer

theorem Noted.stocked (h : Noted e t e.heap) (stocked : Stocked T e) : Stocked T t := by
  have hshelved := h.shelved stocked.toShelved (.refl _) stocked.laid fun h => h
  obtain ⟨past, sound⟩ := stocked.sound
  exact ⟨hshelved, past, h.heap_eq ▸ sound⟩

/-- A condition on the truth of a value: the coercion is called, and its answer is compared with `true`. -/
theorem Stocked.condition_runs (stocked : Stocked T e) (calm : e.Calm) (hs : e.stubs.compiled? "coerce/boolean" = some s)
    {words : InstrId → Nat → Word} {x r : InstrId} (hcallee : words r 0 = s.function) (htrue : words x 1 = e.heap.trueValue)
    (depth : Nat) (self : Activation) (b : BlockId) (p a : InstrId) (state : Progress Word) : ∃ state' t,
      (machineWorld words (enter (depth + 2)) self).runCode [⟨p, .prim .push, [.value a], b⟩,
        ⟨r, .prim .callStub, [.const (.stub "coerce/boolean"), raw 1], b⟩, ⟨x, .prim .isTrue, [.value r], b⟩] state e =
          .ok (.fell state') t ∧
      state'.condition = some (e.heap.truthy (state.regs a)) ∧ Noted e t e.heap := by
  obtain ⟨past, sound⟩ := stocked.sound
  obtain ⟨t, hcall, hnoted⟩ := stocked.truth_agrees calm hs depth
    ⟨s.function, words r 2, #[state.regs a], .ofInt (1 : Nat)⟩ (v := state.regs a) rfl
  have hboolean : ∀ v : Bool, Cond.eq.holds (e.heap.boolean v) e.heap.trueValue = v := by
    have hdistinct := sound.typed.oddballs.distinct
    simp only [List.nodup_cons, List.mem_cons, List.not_mem_nil, or_false, not_or] at hdistinct
    intro v
    rw [Word.holds_eq]
    cases v with
    | true => exact beq_self_eq_true _
    | false => exact beq_eq_false_iff_ne.mpr (Ne.symm hdistinct.2.2.2.1)
  refine ⟨(((state.push (state.regs a)).drop 1).setReg r (e.heap.boolean (e.heap.truthy (state.regs a)))).tested
    (e.heap.truthy (state.regs a)), t, ?_, rfl, hnoted⟩
  rw [runCode_push, runCode_callStub, hcallee]
  refine (bind_of_ok hcall).trans ?_
  rw [runCode_isTrue, Progress.regs_setReg, if_pos rfl, htrue, hboolean]
  rfl

/-- The negation asks for the truth, and answers the other boolean. -/
theorem Stocked.not_agrees (stocked : Stocked T e) (calm : e.Calm) (hs : e.stubs.compiled? "unary/!" = some s)
    (depth : Nat) (self : Activation) (harg : argumentAt self.args 0 = v) : ∃ t,
      callFunction (enter (depth + 3)) s.function self e = .ok (e.heap.boolean !e.heap.truthy v) t ∧ Noted e t e.heap := by
  obtain ⟨words, hstanding, hruns⟩ :=
    stocked.stub_runs calm hs (by simp [StubLibrary.standardSources]) build_not stublike_not
  obtain ⟨jumps, hjumps⟩ : ∃ jumps, maxJumps = jumps + 2 := exists_maxJumps (by decide)
  obtain ⟨_, truth, htruth, hcallee⟩ := hstanding.row (k := 2) rfl (by decide) .refl (i := 0) rfl rfl
  have htrue : words ⟨3⟩ 1 = e.heap.trueValue := by
    obtain ⟨_, hw⟩ := hstanding.word .refl (i := ⟨⟨3⟩, .prim .isTrue, [.value ⟨2⟩], ⟨0⟩⟩)
      (by rw [show notGraph.code ⟨0⟩ = (number 0 notRows).filter (·.block = ⟨0⟩) from Graph.code_ofRows (by decide)]; decide)
      rfl (.inr rfl) rfl
    exact hw
  obtain ⟨_, hyes⟩ := hstanding.row (k := 6) rfl (by decide) (.single (Graph.edge_ofRows (by decide) (by decide)))
    (i := 0) rfl rfl
  obtain ⟨_, hno⟩ := hstanding.row (k := 4) rfl (by decide) (.single (Graph.edge_ofRows (by decide) (by decide)))
    (i := 0) rfl rfl
  have hparameters : ∀ b, notGraph.parameters b = [] := Graph.parameters_ofRows (by decide)
  have hentered := noted_entered e
  have hheap : e.entered.heap = e.heap := hentered.heap_eq
  obtain ⟨state, t, hrun, hcondition, hnoted⟩ := (hentered.stocked stocked).condition_runs (hentered.calm calm)
    (hentered.stubs_eq ▸ htruth) hcallee (hheap ▸ htrue) depth self ⟨0⟩ ⟨1⟩ ⟨0⟩
    (({ regs := fun _ => default } : Progress Word).setReg ⟨0⟩ (argumentAt self.args 0))
  rw [hheap] at hcondition hnoted
  simp only [Progress.regs_setReg, if_true, harg] at hcondition
  refine ⟨t, ?_, hentered.trans hnoted⟩
  have hblock : (machineWorld words (enter (depth + 2)) self).runCode (notGraph.code ⟨0⟩) { regs := fun _ => default }
      e.entered = .ok (.fell state) t := by
    rw [show notGraph.code ⟨0⟩ = (number 0 notRows).filter (·.block = ⟨0⟩) from Graph.code_ofRows (by decide)]
    exact (congrFun (runCode_stubArg (k := 0) (by decide)) _).trans hrun
  rw [hruns, hjumps, Meaning.World.run]
  refine (runAt_turns hblock (Graph.successors_ofRows (by decide)) hcondition (hparameters _) (hparameters _)).trans ?_
  cases e.heap.truthy v with
  | true =>
    refine runAt_ends ?_
    rw [if_pos rfl, show notGraph.code ⟨1⟩ = (number 0 notRows).filter (·.block = ⟨1⟩) from Graph.code_ofRows (by decide)]
    exact congrArg (fun w => EStateM.Result.ok (Meaning.Departure.returned w) t) hno
  | false =>
    refine runAt_ends ?_
    rw [if_neg Bool.false_ne_true,
      show notGraph.code ⟨2⟩ = (number 0 notRows).filter (·.block = ⟨2⟩) from Graph.code_ofRows (by decide)]
    exact congrArg (fun w => EStateM.Result.ok (Meaning.Departure.returned w) t) hyes

/-! ### Callees -/

/-- Every cell begins with the pointer to a shape. -/
theorem shape_of_cell (typed : Heap.Typed e.heap T) {c : Cell} (hv : T v = some c) : ∃ shape flags proto,
    (c.words e.heap.rootShape)[0]? = some shape ∧ T shape = some (.shape flags proto) := by
  have hroot : ∀ kind, ∃ flags proto, T (e.heap.rootShape kind) = some (.shape flags proto) := fun kind =>
    ⟨_, _, typed.rootCell kind⟩
  cases c with
  | raw words => exact absurd hv typed.finished
  | shape flags proto => exact ⟨_, _, _, rfl, typed.rootCell .map⟩
  | leaf kind rest => exact ⟨_, _, _, rfl, typed.rootCell kind⟩
  | text spelled => exact ⟨_, _, _, rfl, typed.rootCell .string⟩
  | store words => exact ⟨_, _, _, rfl, typed.rootCell .field⟩
  | object own items rest =>
    obtain ⟨flags, proto, words, formed⟩ := typed.formed hv
    exact ⟨own, flags, proto, rfl, formed.shape⟩

/-- An engine that has recorded an error, unless there was one before. -/
def withError (e : Engine) (err : RunError) : Engine := { e with pending := e.pending.or (some err) }

/-- The error for a value that is called without being a function. -/
def notFunction (h : Heap) (v : Word) : RunError := .type (h.display v ++ " is not a function")

theorem getStub_compiled {name : String} (hs : e.stubs.compiled? name = some s) : getStub name e = .ok s e := by
  unfold getStub
  refine (get_bind _).trans ?_
  unfold stub
  refine (get_bind _).trans ?_
  rw [hs]
  rfl

theorem callback_typeError (hs : e.stubs.compiled? "noop" = some s) {rest : List Word} : callback "typeError" (v :: rest) e =
    .ok s.function { e.withError (notFunction e.heap v) with
      events := e.events.push (.warning (e.heap.display v ++ " is not a function")) } := by
  have hnoop : ∀ t : Engine, t.stubs = e.stubs → compiling (getStub "noop") t = .ok s t := fun t ht =>
    compiling_ok (getStub_compiled (ht ▸ hs))
  unfold callback
  simp only [argument, List.getElem?_cons_zero, pure_bind]
  unfold typeError notFunction withError
  refine (get_bind _).trans ?_
  generalize e.heap.display v ++ " is not a function" = message
  have hwarned : (emitEvent (.warning message) : RunM Unit) e =
      .ok () { e with events := e.events.push (.warning message) } := rfl
  have hrecorded : recordError (.type message) { e with events := e.events.push (.warning message) } =
      .ok () { e with events := e.events.push (.warning message), pending := e.pending.or (some (.type message)) } := rfl
  rw [bind_of_ok hwarned, bind_of_ok hrecorded]
  exact bind_of_ok (hnoop _ rfl)

end Engine
end ScriptEngine
