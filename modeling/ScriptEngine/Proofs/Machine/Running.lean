import ScriptEngine.Proofs.Machine.Translation

/-!
Running generated code. The machine is one world in which instruction graphs can be executed: its
values are words, and what an instruction does is what the machine does for it. A program does what
its graph does in that world, if the graph takes the arguments of its calls from areas of their size.
-/

namespace ScriptEngine

open State

namespace Engine

open Machine (holds compute perform callFunction)

/-- Execution of graphs by the machine, for one activation. -/
def machineWorld (words : InstrId → Nat → Word) (call : Caller) (self : Activation) :
    Meaning.World Word RunError Engine where
  const id k _ := words id k
  act i x args := perform call self ∅ (i.action (fun k => .word (x k)) (args.map .word))
  test i x := return holds ∅ (i.condition fun k => .word (x k))
  overflows i x := (compute ∅ (i.arithmetic fun k => .word (x k))).2
  forwardCall callee receiver argc start :=
    perform call self ∅ (.forwardCall (.word callee) (.word receiver) (.word argc) start)
  tailCall target := callFunction call target self
  blank := default
  stuck := .wildJump
  exhausted := .exhausted

section

variable {call : Caller} {self : Activation} {regs : Registers} {i : Instr} {words : Nat → Word}

@[simp] theorem eval_word (w : Word) : Machine.eval regs (.word w) = w := rfl

theorem compute_words (i : Instr) (x : Nat → Operand) :
    compute regs (i.arithmetic x) = compute ∅ (i.arithmetic fun k => .word (Machine.eval regs (x k))) := by
  unfold Instr.arithmetic
  split <;> rfl

theorem holds_words (i : Instr) (x : Nat → Operand) :
    holds regs (i.condition x) = holds ∅ (i.condition fun k => .word (Machine.eval regs (x k))) := by
  unfold Instr.condition
  split <;> rfl

/-- An action only depends on the words of its operands. -/
theorem perform_words (words : Nat → Word) (args : List Operand) :
    perform call self regs (i.action (i.operand words) args) =
      perform call self ∅ (i.action (fun k => .word (Machine.eval regs (i.operand words k)))
        ((args.map (Machine.eval regs)).map .word)) := by
  have habsent : Machine.eval ∅ (i.operand words i.inputs.length) =
      Machine.eval regs (i.operand words i.inputs.length) := by
    simp [Instr.operand]
  unfold Instr.action
  split
  all_goals first
    | rfl
    | simp [perform, habsent, Function.comp_def]; done
    | (simp only [perform]
       rw [compute_words])

end

/-! ### Argument areas -/

/-- Areas that are open at a place of a block, by their sizes, and whether there are arguments to be
forwarded. -/
structure Holding where
  areas : List Nat := []
  forwards : Bool := false
deriving DecidableEq

namespace Holding

/-- The areas after an instruction, if a call takes as many arguments as its area has room for. -/
def step (h : Holding) (i : Instr) : Option Holding :=
  match i.op with
  | .prim .openArea =>
    match i.rawInput 0 with
    | .ok n => if 0 ≤ n then some { h with areas := n.toNat :: h.areas } else none
    | .error _ => none
  | .prim .call | .prim .callStub =>
    match h.areas with
    | size :: outer => if size = i.taken then some { h with areas := outer } else none
    | [] => none
  | .prim .forward => some { h with forwards := true }
  | .prim .forwardCall => some { h with forwards := false }
  | _ => some h

/-- Code generation has these areas open. -/
structure Of (h : Holding) (s : Emission) : Prop where
  areas : s.areas.map (fun area => area.missing + area.args.length) = h.areas
  forwards : s.forwarded.isSome = h.forwards

theorem step_plain {h : Holding} {i : Instr} {op : PrimOp} (hop : i.op = .prim op)
    (hplain : (op.isValue || op.isEffect || op.isTest) = true) : h.step i = some h := by
  unfold step
  cases op <;> simp [PrimOp.isValue, PrimOp.isEffect, PrimOp.isTest] at hplain <;> rw [hop]

theorem step_arithmetic {h : Holding} {i : Instr} (harith : i.isArithmetic = true) : h.step i = some h := by
  unfold Instr.isArithmetic at harith
  simp only [Bool.or_eq_true, decide_eq_true_eq] at harith
  unfold step
  rcases harith with ((hop | hop) | hop) | hop <;> rw [hop]

theorem Of.step {h h' : Holding} {i : Instr} {x : Nat → Operand} {s s' : Emission} {emitted : Emitted}
    (hs : h.Of s) (hgen : Generates i x s emitted s') (hstep : h.step i = some h') : h'.Of s' := by
  cases hgen with
  | value hop hplain | effect hop hplain =>
    rw [step_plain hop (by simp [hplain])] at hstep
    cases hstep
    exact hs
  | test hop hplain =>
    rw [step_plain hop (by simp [hplain])] at hstep
    cases hstep
    exact ⟨hs.areas, hs.forwards⟩
  | arithmetic harith =>
    rw [step_arithmetic harith] at hstep
    cases hstep
    exact ⟨hs.areas, hs.forwards⟩
  | parameter hop | overflowed hop _ | tailCall hop =>
    simp only [Holding.step, hop, Option.some.injEq] at hstep
    exact hstep ▸ ⟨hs.areas, hs.forwards⟩
  | ret hop =>
    rcases hop with hop | hop
    all_goals
      simp only [Holding.step, hop, Option.some.injEq] at hstep
      exact hstep ▸ ⟨hs.areas, hs.forwards⟩
  | pass htarget =>
    have hop : i.op = .prim .toPhi := by
      by_contra hne
      simp [Instr.passTarget?, hne] at htarget
    simp only [Holding.step, hop, Option.some.injEq] at hstep
    exact hstep ▸ ⟨hs.areas, hs.forwards⟩
  | openArea hop hraw hcount =>
    simp only [Holding.step, hop, hraw, Option.ite_none_right_eq_some, Option.some.injEq] at hstep
    obtain ⟨h0, rfl⟩ := hstep
    exact ⟨by simp [hcount h0, hs.areas], hs.forwards⟩
  | push hop hareas hmissing =>
    simp only [Holding.step, hop, Option.some.injEq] at hstep
    subst hstep
    refine ⟨?_, hs.forwards⟩
    rw [← hs.areas, hareas]
    simp [hmissing]
    omega
  | call hop hareas hmissing =>
    have hsize := hs.areas
    rw [hareas, List.map_cons] at hsize
    rcases hop with hop | hop
    all_goals
      simp only [Holding.step, hop, ← hsize, Option.ite_none_right_eq_some, Option.some.injEq] at hstep
      obtain ⟨-, rfl⟩ := hstep
      exact ⟨rfl, hs.forwards⟩
  | forward hop =>
    simp only [Holding.step, hop, Option.some.injEq] at hstep
    exact hstep ▸ ⟨hs.areas, rfl⟩
  | forwardCall hop hforwarded =>
    simp only [Holding.step, hop, Option.some.injEq] at hstep
    exact hstep ▸ ⟨hs.areas, rfl⟩

/-- A call finds as many arguments as it takes. -/
theorem Of.args_length {h h' : Holding} {i : Instr} {s : Emission} {area : ArgumentArea}
    {outer : List ArgumentArea} (hs : h.Of s) (hop : i.op = .prim .call ∨ i.op = .prim .callStub)
    (hareas : s.areas = area :: outer) (hmissing : area.missing = 0) (hstep : h.step i = some h') :
    area.args.length = i.taken := by
  have hsize := hs.areas
  rw [hareas, List.map_cons, hmissing, Nat.zero_add] at hsize
  rcases hop with hop | hop
  all_goals
    simp only [Holding.step, hop, ← hsize, Option.ite_none_right_eq_some] at hstep
    exact hstep.1

end Holding

/-! ### Instructions -/

/-- Operands that code generation has met and not used yet. -/
def Emission.pending (s : Emission) : List Operand :=
  s.areas.flatMap (·.args) ++ s.forwarded.toList.map (·.1) ++ s.condition.toList.flatMap (·.operands) ++
    s.lastArithmetic.toList.flatMap (·.operands) ++ s.phiArgs.map (·.2)

/-- The results that pending operands refer to exist. -/
def Emission.Settled (s : Emission) : Prop :=
  ∀ a ∈ s.pending, ∀ id ∈ a.registers, s.defined.contains id = true

/-- An execution of the graph is where the machine is: what the one has met and not used yet is what
code generation has. -/
structure Tracks (s : Emission) (regs : Registers) (ρ : Meaning.Progress Word) : Prop where
  registers : ∀ id, ρ.regs id = regs.getD id default
  pushed : ρ.pushed = (s.areas.flatMap (·.args)).map (Machine.eval regs)
  forwarded : ρ.forwarded = s.forwarded.map fun p => (Machine.eval regs p.1, p.2)
  condition : ρ.condition = s.condition.map (holds regs)
  arithmetic : ρ.arithmetic.map (fun p => (compute ∅ (p.1.arithmetic fun k => .word (p.2 k))).2) =
    s.lastArithmetic.map fun op => (compute regs op).2
  passed : ρ.passed = s.phiArgs.map fun p => (p.1, Machine.eval regs p.2)
  settled : s.Settled

section

variable {regs : Registers} {id : InstrId} {v : Word}

theorem getD_insert (regs : Registers) (id : InstrId) (v : Word) (id' : InstrId) :
    (regs.insert id v).getD id' default = if id' = id then v else regs.getD id' default := by
  rw [Std.TreeMap.getD_insert]
  by_cases h : id' = id
  · subst h
    simp
  · have hne : compare id id' ≠ .eq := fun heq => h (Std.LawfulEqCmp.eq_of_compare heq).symm
    simp [h, hne]

theorem eval_insert {a : Operand} (h : id ∉ a.registers) : Machine.eval (regs.insert id v) a = Machine.eval regs a := by
  cases a with
  | word w => rfl
  | reg id' =>
    have hne : id' ≠ id := fun heq => h (by simp [Operand.registers, heq])
    simp only [Machine.eval, getD_insert, if_neg hne]

theorem compute_insert {op : Arithmetic} (h : ∀ a ∈ op.operands, id ∉ a.registers) :
    compute (regs.insert id v) op = compute regs op := by
  cases op with
  | neg a => simp only [compute, eval_insert (h a (by simp [Arithmetic.operands]))]
  | add a b | sub a b | mul a b =>
    simp only [compute, eval_insert (h a (by simp [Arithmetic.operands])),
      eval_insert (h b (by simp [Arithmetic.operands]))]

theorem holds_insert {c : Condition} (h : ∀ a ∈ c.operands, id ∉ a.registers) :
    holds (regs.insert id v) c = holds regs c := by
  cases c with
  | compare cond a b =>
    simp only [holds, eval_insert (h a (by simp [Condition.operands])),
      eval_insert (h b (by simp [Condition.operands]))]
  | isSmi a | testBits a mask => simp only [holds, eval_insert (h a (by simp [Condition.operands]))]
  | overflow op => simp only [holds, compute_insert h]

end

/-- A result that is new does not matter to what was met before. -/
theorem Tracks.define {s : Emission} {regs : Registers} {ρ : Meaning.Progress Word} {id : InstrId}
    (h : Tracks s regs ρ) (hnew : s.defined.contains id = false) (v : Word) :
    Tracks (s.define id) (regs.insert id v) (ρ.setReg id v) := by
  have hout : ∀ a ∈ s.pending, id ∉ a.registers := fun a ha hid => by
    have := h.settled a ha id hid
    simp [hnew] at this
  have hareas : ∀ a ∈ s.areas.flatMap (·.args), id ∉ a.registers := fun a ha =>
    hout a (by simp only [Emission.pending, List.mem_append]; tauto)
  have hforwarded : ∀ p ∈ s.forwarded, id ∉ p.1.registers := fun p hp =>
    hout p.1 (by simp only [Emission.pending, List.mem_append, List.mem_map]
                 exact .inl (.inl (.inl (.inr ⟨p, by simpa using hp, rfl⟩))))
  have hcondition : ∀ c ∈ s.condition, ∀ a ∈ c.operands, id ∉ a.registers := fun c hc a ha =>
    hout a (by simp only [Emission.pending, List.mem_append, List.mem_flatMap]
               exact .inl (.inl (.inr ⟨c, by simpa using hc, ha⟩)))
  have harithmetic : ∀ op ∈ s.lastArithmetic, ∀ a ∈ op.operands, id ∉ a.registers := fun op hop a ha =>
    hout a (by simp only [Emission.pending, List.mem_append, List.mem_flatMap]
               exact .inl (.inr ⟨op, by simpa using hop, ha⟩))
  have hpassed : ∀ p ∈ s.phiArgs, id ∉ p.2.registers := fun p hp =>
    hout p.2 (by simp only [Emission.pending, List.mem_append, List.mem_map]
                 exact .inr ⟨p, hp, rfl⟩)
  refine ⟨fun id' => ?_, ?_, ?_, ?_, ?_, ?_, fun a ha id' hid => ?_⟩
  · rw [getD_insert, ← h.registers]
    rfl
  · change ρ.pushed = _
    rw [h.pushed]
    exact List.map_congr_left fun a ha => (eval_insert (hareas a ha)).symm
  · change ρ.forwarded = _
    rw [h.forwarded]
    exact Option.map_congr fun p hp => by rw [eval_insert (hforwarded p hp)]
  · change ρ.condition = _
    rw [h.condition]
    exact Option.map_congr fun c hc => (holds_insert (hcondition c hc)).symm
  · change ρ.arithmetic.map _ = _
    rw [h.arithmetic]
    exact Option.map_congr fun op hop => by rw [compute_insert (harithmetic op hop)]
  · change ρ.passed = _
    rw [h.passed]
    exact List.map_congr_left fun p hp => by rw [eval_insert (hpassed p hp)]
  · change (s.defined.insert id).contains id' = true
    rw [Std.TreeSet.contains_insert, h.settled a ha id' hid, Bool.or_true]

section

variable {words : InstrId → Nat → Word} {call : Caller} {self : Activation} {s t : Emission}
  {regs : Registers} {ρ : Meaning.Progress Word} {i : Instr}

theorem Tracks.values (h : Tracks s regs ρ) (words : InstrId → Nat → Word) (call : Caller) (self : Activation)
    (i : Instr) : (machineWorld words call self).values ρ i =
      fun k => Machine.eval regs (i.operand (words i.id) k) := by
  funext k
  unfold Meaning.World.values Instr.operand
  split <;> simp_all [machineWorld, Machine.eval, h.registers]

/-- How the graph goes on after an instruction, and the machine after what was generated for it. -/
def Mirrors (words : InstrId → Nat → Word) (call : Caller) (self : Activation) (regs : Registers)
    (ρ : Meaning.Progress Word) (i : Instr) : Emitted → Emission → Prop
  | .nothing, t => ∃ ρ', (machineWorld words call self).perform ρ i = pure ρ' ∧ Tracks t regs ρ'
  | .effect action, t => ∃ ρ', (machineWorld words call self).perform ρ i =
      (do let _ ← perform call self regs action; return ρ') ∧ Tracks t regs ρ'
  | .value action, t => ∃ after : Word → Meaning.Progress Word,
      (machineWorld words call self).perform ρ i =
        (do return after (← perform call self regs action)) ∧
      ∀ v, Tracks (t.define i.id) (regs.insert i.id v) (after v)
  | .exit (.ret a), _ => (machineWorld words call self).runCode [i] ρ = pure (.returned (Machine.eval regs a))
  | .exit (.tailCall a), _ => (machineWorld words call self).runCode [i] ρ =
      (do return .returned (← callFunction call (Machine.eval regs a) self))
  | .exit _, _ => False

/-- An instruction with a result that is nothing but an action of the world. -/
theorem perform_value {V ε σ : Type} {W : Meaning.World V ε σ} {ρ : Meaning.Progress V} {op : PrimOp}
    (hop : i.op = .prim op) (hvalue : op.isValue = true) (hliteral : op ≠ .literal) (hcode : op ≠ .code) :
    W.perform ρ i = (do return ρ.setReg i.id (← W.act i (W.values ρ i) [])) := by
  have htaken : i.taken = 0 := by
    unfold Instr.taken
    rw [hop]
    cases op <;> simp_all [PrimOp.isValue]
  have harith : i.isArithmetic = false := by
    simp only [Instr.isArithmetic, hop]
    cases op <;> simp_all [PrimOp.isValue]
  unfold Meaning.World.perform
  rw [hop]
  cases op
  all_goals simp only [PrimOp.isValue, Bool.false_eq_true, ne_eq, not_true_eq_false] at hvalue hliteral hcode
  all_goals
    simp only [htaken, List.take_zero, Meaning.World.store, List.drop_zero, harith, hop]
    rfl

theorem perform_effect {V ε σ : Type} {W : Meaning.World V ε σ} {ρ : Meaning.Progress V} {op : PrimOp}
    (hop : i.op = .prim op) (heffect : op.isEffect = true) :
    W.perform ρ i = (do let _ ← W.act i (W.values ρ i) []; return ρ) := by
  have htaken : i.taken = 0 := by
    unfold Instr.taken
    rw [hop]
    cases op <;> simp_all [PrimOp.isEffect]
  have harith : i.isArithmetic = false := by
    simp only [Instr.isArithmetic, hop]
    cases op <;> simp_all [PrimOp.isEffect]
  unfold Meaning.World.perform
  rw [hop]
  cases op
  all_goals simp only [PrimOp.isEffect, Bool.false_eq_true] at heffect
  all_goals
    simp only [htaken, List.take_zero, Meaning.World.store, List.drop_zero, harith, hop]
    rfl

theorem perform_test {V ε σ : Type} {W : Meaning.World V ε σ} {ρ : Meaning.Progress V} {op : PrimOp}
    (hop : i.op = .prim op) (htest : op.isTest = true) : W.perform ρ i =
      (do return { ρ with condition := some (← W.test i (W.values ρ i)) }) := by
  unfold Meaning.World.perform
  rw [hop]
  cases op
  all_goals simp only [PrimOp.isTest, Bool.false_eq_true] at htest
  all_goals rfl

/-- A result that comes from an instruction without arguments. -/
theorem mirrors_value {op : PrimOp} (hop : i.op = .prim op) (hvalue : op.isValue = true)
    (h : Tracks s regs ρ) (hnew : s.defined.contains i.id = false) :
    Mirrors words call self regs ρ i (.value (i.action (i.operand (words i.id)) [])) s := by
  refine ⟨ρ.setReg i.id, ?_, h.define hnew⟩
  by_cases hmove : op = .literal ∨ op = .code
  · have haction : i.action (i.operand (words i.id)) [] = .move (i.operand (words i.id) 0) := by
      rcases hmove with rfl | rfl <;> simp [Instr.action, hop]
    have hperform : (machineWorld words call self).perform ρ i =
        pure (ρ.setReg i.id ((machineWorld words call self).values ρ i 0)) := by
      unfold Meaning.World.perform
      rcases hmove with rfl | rfl <;> rw [hop]
    rw [hperform, haction, h.values]
    rfl
  · rw [not_or] at hmove
    rw [perform_value hop hvalue hmove.1 hmove.2, perform_words, h.values]
    rfl

theorem mirrors_effect {op : PrimOp} (hop : i.op = .prim op) (heffect : op.isEffect = true)
    (h : Tracks s regs ρ) :
    Mirrors words call self regs ρ i (.effect (i.action (i.operand (words i.id)) [])) s := by
  refine ⟨ρ, ?_, h⟩
  rw [perform_effect hop heffect, perform_words, h.values]
  rfl

theorem mem_pending {s : Emission} {a : Operand} : a ∈ s.pending ↔
    (∃ area ∈ s.areas, a ∈ area.args) ∨ (∃ p ∈ s.forwarded, p.1 = a) ∨ (∃ c ∈ s.condition, a ∈ c.operands) ∨
      (∃ op ∈ s.lastArithmetic, a ∈ op.operands) ∨ ∃ p ∈ s.phiArgs, p.2 = a := by
  simp only [Emission.pending, List.mem_append, List.mem_flatMap, List.mem_map, Option.mem_toList,
    Option.mem_def, or_assoc]

/-- New operands may be pending if their results exist. -/
theorem Emission.Settled.extend (h : s.Settled) (hdefined : t.defined = s.defined)
    (hpending : ∀ a ∈ t.pending, a ∈ s.pending ∨ ∀ id ∈ a.registers, s.defined.contains id = true) :
    t.Settled := by
  intro a ha id hid
  rw [hdefined]
  rcases hpending a ha with hold | hnew
  · exact h a hold id hid
  · exact hnew id hid

/-- The results of the operands of an instruction that is supplied exist. -/
theorem Supplied.settled {words : Nat → Word} {op : PrimOp} (h : Supplied i s) (hop : i.op = .prim op)
    {k : Nat} (hrole : op.roles[k]? = some Role.operand ∨ k = i.inputs.length) :
    ∀ id ∈ (i.operand words k).registers, s.defined.contains id = true := by
  intro id hid
  unfold Instr.operand at hid
  split at hid
  · rename_i id' hget
    simp only [Operand.registers, List.mem_singleton] at hid
    subst hid
    refine h op hop k id (hrole.resolve_right fun hk => ?_) hget
    simp [hk] at hget
  · simp [Operand.registers] at hid

theorem mem_condition {x : Nat → Operand} {op : PrimOp} (hop : i.op = .prim op) (htest : op.isTest = true)
    {a : Operand} (ha : a ∈ (i.condition x).operands) :
    ∃ k, (op.roles[k]? = some Role.operand ∨ k = i.inputs.length) ∧ a = x k := by
  unfold Instr.condition at ha
  rw [hop] at ha
  cases op
  all_goals simp only [PrimOp.isTest, Bool.false_eq_true] at htest
  all_goals
    simp only [Condition.operands, List.mem_cons, List.not_mem_nil, or_false] at ha
  case isTrue | isUndefined =>
    rcases ha with rfl | rfl
    · exact ⟨0, .inl rfl, rfl⟩
    · exact ⟨_, .inr rfl, rfl⟩
  case isSmi | testBits => exact ⟨0, .inl rfl, ha⟩
  case compareSmi | comparePointer =>
    rcases ha with rfl | rfl
    · exact ⟨0, .inl rfl, rfl⟩
    · exact ⟨1, .inl rfl, rfl⟩

theorem mem_arithmetic {x : Nat → Operand} (harith : i.isArithmetic = true) {a : Operand}
    (ha : a ∈ (i.arithmetic x).operands) : ∃ op : PrimOp, i.op = .prim op ∧
      ∃ k, (op.roles[k]? = some Role.operand ∨ k = i.inputs.length) ∧ a = x k := by
  simp only [Instr.isArithmetic, Bool.or_eq_true, decide_eq_true_eq] at harith
  unfold Instr.arithmetic at ha
  rcases harith with ((hop | hop) | hop) | hop
  all_goals
    rw [hop] at ha
    simp only [Arithmetic.operands, List.mem_cons, List.not_mem_nil, or_false] at ha
    refine ⟨_, hop, ?_⟩
  · exact ⟨0, .inl rfl, ha⟩
  all_goals
    rcases ha with rfl | rfl
    · exact ⟨0, .inl rfl, rfl⟩
    · exact ⟨1, .inl rfl, rfl⟩

theorem mirrors_arithmetic (harith : i.isArithmetic = true) (h : Tracks s regs ρ) (hs : Supplied i s)
    (hnew : s.defined.contains i.id = false) :
    Mirrors words call self regs ρ i (.value (.arithmetic (i.arithmetic (i.operand (words i.id)))))
      { s with lastArithmetic := some (i.arithmetic (i.operand (words i.id))) } := by
  have hvalues := h.values words call self i
  have haction : ∀ x args, i.action x args = .arithmetic (i.arithmetic x) := by
    intro x args
    simp only [Instr.isArithmetic, Bool.or_eq_true, decide_eq_true_eq] at harith
    unfold Instr.action
    rcases harith with ((hop | hop) | hop) | hop <;> rw [hop]
  have hperform : (machineWorld words call self).perform ρ i = (do
      let v ← (machineWorld words call self).act i ((machineWorld words call self).values ρ i) []
      return { ρ.setReg i.id v with arithmetic := some (i, (machineWorld words call self).values ρ i) }) := by
    unfold Meaning.World.perform
    have hop := harith
    simp only [Instr.isArithmetic, Bool.or_eq_true, decide_eq_true_eq] at hop
    rcases hop with ((hop | hop) | hop) | hop
    all_goals
      rw [hop]
      simp only [Instr.taken, hop, List.take_zero, Meaning.World.store, List.drop_zero, harith]
      rfl
  refine ⟨fun v => { ρ.setReg i.id v with
    arithmetic := some (i, fun k => Machine.eval regs (i.operand (words i.id) k)) }, ?_, fun v => ?_⟩
  · rw [hperform, hvalues, ← haction _ [], perform_words]
    rfl
  · have hsettled : Tracks { s with lastArithmetic := some (i.arithmetic (i.operand (words i.id))) } regs
        { ρ with arithmetic := some (i, fun k => Machine.eval regs (i.operand (words i.id) k)) } := by
      refine ⟨h.registers, h.pushed, h.forwarded, h.condition, ?_, h.passed, h.settled.extend rfl ?_⟩
      · simp only [Option.map_some, ← compute_words]
      · intro a ha
        rcases mem_pending.mp ha with ha | ha | ha | ⟨op, hop, ha⟩ | ha
        · exact .inl (mem_pending.mpr (.inl ha))
        · exact .inl (mem_pending.mpr (.inr (.inl ha)))
        · exact .inl (mem_pending.mpr (.inr (.inr (.inl ha))))
        · cases hop
          obtain ⟨op, hop, k, hk, rfl⟩ := mem_arithmetic harith ha
          exact .inr (hs.settled hop hk)
        · exact .inl (mem_pending.mpr (.inr (.inr (.inr (.inr ha)))))
    exact hsettled.define hnew v

theorem mirrors_test {op : PrimOp} (hop : i.op = .prim op) (htest : op.isTest = true) (h : Tracks s regs ρ)
    (hs : Supplied i s) :
    Mirrors words call self regs ρ i .nothing
      { s with condition := some (i.condition (i.operand (words i.id))) } := by
  have hvalues := h.values words call self i
  refine ⟨{ ρ with condition := some (holds regs (i.condition (i.operand (words i.id)))) }, ?_, ?_⟩
  · rw [perform_test hop htest, hvalues, holds_words]
    rfl
  · refine ⟨h.registers, h.pushed, h.forwarded, rfl, h.arithmetic, h.passed, h.settled.extend rfl ?_⟩
    intro a ha
    rcases mem_pending.mp ha with ha | ha | ⟨c, hc, ha⟩ | ha | ha
    · exact .inl (mem_pending.mpr (.inl ha))
    · exact .inl (mem_pending.mpr (.inr (.inl ha)))
    · cases hc
      obtain ⟨k, hk, rfl⟩ := mem_condition hop htest ha
      exact .inr (hs.settled hop hk)
    · exact .inl (mem_pending.mpr (.inr (.inr (.inr (.inl ha)))))
    · exact .inl (mem_pending.mpr (.inr (.inr (.inr (.inr ha)))))

/-- What the machine and the graph do at an instruction whose operands are known. -/
theorem Generates.mirrors {emitted : Emitted} {hold hold' : Holding}
    (hgen : Generates i (i.operand (words i.id)) s emitted t) (hs : Supplied i s) (h : Tracks s regs ρ)
    (hhold : hold.Of s) (hstep : hold.step i = some hold')
    (hnew : i.op ≠ .prim .phi → s.defined.contains i.id = false) :
    Mirrors words call self regs ρ i emitted t := by
  have hvalues := h.values words call self i
  have hvalue : ∀ k, (machineWorld words call self).values ρ i k = Machine.eval regs (i.operand (words i.id) k) :=
    congrFun hvalues
  cases hgen with
  | @value op hop hplain =>
    refine mirrors_value hop hplain h (hnew ?_)
    rw [hop]
    rintro heq
    cases heq
    cases hplain
  | effect hop hplain => exact mirrors_effect hop hplain h
  | arithmetic harith =>
    refine mirrors_arithmetic harith h hs (hnew fun hop => ?_)
    simp [Instr.isArithmetic, hop] at harith
  | parameter hop =>
    refine ⟨ρ, ?_, h⟩
    unfold Meaning.World.perform
    rw [hop]
  | @pass phi htarget =>
    have hop : i.op = .prim .toPhi := by
      by_contra hne
      simp [Instr.passTarget?, hne] at htarget
    refine ⟨{ ρ with passed := (phi, Machine.eval regs (i.operand (words i.id) 1)) :: ρ.passed }, ?_, ?_⟩
    · unfold Meaning.World.perform
      rw [hop]
      simp only [htarget, hvalue]
    · refine ⟨h.registers, h.pushed, h.forwarded, h.condition, h.arithmetic, ?_, h.settled.extend rfl ?_⟩
      · simp only [h.passed, List.map_cons]
      · intro a ha
        rcases mem_pending.mp ha with ha | ha | ha | ha | ⟨p, hp, rfl⟩
        · exact .inl (mem_pending.mpr (.inl ha))
        · exact .inl (mem_pending.mpr (.inr (.inl ha)))
        · exact .inl (mem_pending.mpr (.inr (.inr (.inl ha))))
        · exact .inl (mem_pending.mpr (.inr (.inr (.inr (.inl ha)))))
        · rcases List.mem_cons.mp hp with rfl | hp
          · exact .inr (hs.settled hop (.inl rfl))
          · exact .inl (mem_pending.mpr (.inr (.inr (.inr (.inr ⟨p, hp, rfl⟩)))))
  | openArea hop _ _ =>
    refine ⟨ρ, ?_, h.registers, ?_, h.forwarded, h.condition, h.arithmetic, h.passed,
      h.settled.extend rfl fun a ha => .inl ?_⟩
    · unfold Meaning.World.perform
      rw [hop]
    · rw [h.pushed]
      rfl
    · rcases mem_pending.mp ha with ⟨area, harea, ha⟩ | ha
      · rcases List.mem_cons.mp harea with rfl | harea
        · cases ha
        · exact mem_pending.mpr (.inl ⟨area, harea, ha⟩)
      · exact mem_pending.mpr (.inr ha)
  | @push area outer missing hop hareas hmissing =>
    refine ⟨{ ρ with pushed := Machine.eval regs (i.operand (words i.id) 0) :: ρ.pushed }, ?_, h.registers, ?_,
      h.forwarded, h.condition, h.arithmetic, h.passed, h.settled.extend rfl fun a ha => ?_⟩
    · unfold Meaning.World.perform
      rw [hop]
      simp only [hvalue]
    · simp only [h.pushed, hareas, List.flatMap_cons, List.cons_append, List.map_cons]
    · rcases mem_pending.mp ha with ⟨area', harea, ha⟩ | ha
      · rcases List.mem_cons.mp harea with rfl | harea
        · rcases List.mem_cons.mp ha with rfl | ha
          · exact .inr (hs.settled hop (.inl rfl))
          · exact .inl (mem_pending.mpr (.inl ⟨area, by simp [hareas], ha⟩))
        · exact .inl (mem_pending.mpr (.inl ⟨area', by simp [hareas, harea], ha⟩))
      · exact .inl (mem_pending.mpr (.inr ha))
  | @call area outer hop hareas hmissing =>
    have hlength := hhold.args_length hop hareas hmissing hstep
    have hnew : s.defined.contains i.id = false := hnew (by rcases hop with hop | hop <;> simp [hop])
    have hperform : (machineWorld words call self).perform ρ i = (do
        let v ← (machineWorld words call self).act i ((machineWorld words call self).values ρ i)
          (ρ.pushed.take i.taken)
        return { ρ.setReg i.id v with pushed := ρ.pushed.drop i.taken }) := by
      unfold Meaning.World.perform
      rcases hop with hop | hop
      all_goals
        rw [hop]
        simp only [Meaning.World.store, hop, Instr.isArithmetic]
        rfl
    have hargs : ρ.pushed = area.args.map (Machine.eval regs) ++ (outer.flatMap (·.args)).map (Machine.eval regs) := by
      rw [h.pushed, hareas, List.flatMap_cons, List.map_append]
    have htake : ρ.pushed.take i.taken = area.args.map (Machine.eval regs) := by
      rw [hargs, List.take_left' (by simpa using hlength)]
    have hdrop : ρ.pushed.drop i.taken = (outer.flatMap (·.args)).map (Machine.eval regs) := by
      rw [hargs, List.drop_left' (by simpa using hlength)]
    refine ⟨fun v => { ρ.setReg i.id v with pushed := ρ.pushed.drop i.taken }, ?_, fun v => ?_⟩
    · rw [hperform, hvalues, htake, perform_words]
      rfl
    · have hclosed : Tracks { s with areas := outer } regs { ρ with pushed := ρ.pushed.drop i.taken } := by
        refine ⟨h.registers, hdrop, h.forwarded, h.condition, h.arithmetic, h.passed,
          h.settled.extend rfl fun a ha => .inl ?_⟩
        rcases mem_pending.mp ha with ⟨area', harea, ha⟩ | ha
        · exact mem_pending.mpr (.inl ⟨area', by simp [hareas, harea], ha⟩)
        · exact mem_pending.mpr (.inr ha)
      exact hclosed.define hnew v
  | forward hop =>
    refine ⟨{ ρ with forwarded := some (Machine.eval regs (i.operand (words i.id) 0), i.rawAt 1) }, ?_,
      h.registers, h.pushed, rfl, h.condition, h.arithmetic, h.passed, h.settled.extend rfl fun a ha => ?_⟩
    · unfold Meaning.World.perform
      rw [hop]
      simp only [hvalue]
    · rcases mem_pending.mp ha with ha | ⟨p, hp, rfl⟩ | ha
      · exact .inl (mem_pending.mpr (.inl ha))
      · cases hp
        exact .inr (hs.settled hop (.inl rfl))
      · exact .inl (mem_pending.mpr (.inr (.inr ha)))
  | @forwardCall argc start hop hforwarded =>
    have hnew : s.defined.contains i.id = false := hnew (by simp [hop])
    refine ⟨fun v => { ρ.setReg i.id v with forwarded := none }, ?_, fun v => ?_⟩
    · unfold Meaning.World.perform
      rw [hop]
      simp only [h.forwarded, hforwarded, Option.map_some, hvalue]
      rfl
    · have hclosed : Tracks { s with forwarded := none } regs { ρ with forwarded := none } := by
        refine ⟨h.registers, h.pushed, rfl, h.condition, h.arithmetic, h.passed,
          h.settled.extend rfl fun a ha => .inl ?_⟩
        rcases mem_pending.mp ha with ha | ⟨p, hp, -⟩ | ha
        · exact mem_pending.mpr (.inl ha)
        · cases hp
        · exact mem_pending.mpr (.inr (.inr ha))
      exact hclosed.define hnew v
  | test hop htest => exact mirrors_test hop htest h hs
  | @overflowed op hop hlast =>
    have harithmetic := h.arithmetic
    rw [hlast, Option.map_some, Option.map_eq_some_iff] at harithmetic
    obtain ⟨⟨j, x⟩, hj, hoverflow⟩ := harithmetic
    refine ⟨{ ρ with condition := some (compute regs op).2, arithmetic := none }, ?_, h.registers, h.pushed,
      h.forwarded, rfl, rfl, h.passed, h.settled.extend rfl fun a ha => .inl ?_⟩
    · unfold Meaning.World.perform
      rw [hop]
      simp only [hj]
      rw [← hoverflow]
      rfl
    · rcases mem_pending.mp ha with ha | ha | ⟨c, hc, ha⟩ | ⟨op', hop', -⟩ | ha
      · exact mem_pending.mpr (.inl ha)
      · exact mem_pending.mpr (.inr (.inl ha))
      · cases hc
        exact mem_pending.mpr (.inr (.inr (.inr (.inl ⟨op, hlast, ha⟩))))
      · cases hop'
      · exact mem_pending.mpr (.inr (.inr (.inr (.inr ha))))
  | ret hop =>
    change (machineWorld words call self).runCode [i] ρ = _
    unfold Meaning.World.runCode
    rcases hop with hop | hop
    all_goals
      rw [hop]
      simp only [hvalue]
  | tailCall hop =>
    change (machineWorld words call self).runCode [i] ρ = _
    unfold Meaning.World.runCode
    rw [hop]
    simp only [hvalue]
    rfl

end

/-! ### Blocks -/

/-- How the machine ends the instructions of a block: with a result if one of them is an exit. -/
def leave (call : Caller) (self : Activation) (regs : Registers) : Option Exit → RunM (Registers ⊕ Word)
  | some (.ret a) => return .inr (Machine.eval regs a)
  | some (.tailCall a) => return .inr (← callFunction call (Machine.eval regs a) self)
  | _ => return .inl regs

/-- The graph and the machine end a block in the same way, with a result if it has an exit. -/
def Matches (s : Emission) (exit : Option Exit) : Meaning.Departure Word → Registers ⊕ Word → Prop
  | .fell ρ, .inl regs => exit = none ∧ Tracks s regs ρ
  | .returned v, .inr w => exit ≠ none ∧ v = w
  | _, _ => False

section

variable {words : InstrId → Nat → Word} {call : Caller} {self : Activation}

theorem runBody_cons (action : Action) (body : List MachineInstr) (regs : Registers) (target : Option InstrId) :
    Machine.runBody call self (⟨target, action⟩ :: body) regs = (do
      let result ← perform call self regs action
      match target with
      | some id => Machine.runBody call self body (regs.insert id result)
      | none => Machine.runBody call self body regs) := rfl

/-- Only exits end a block. -/
theorem Generates.no_exit {i : Instr} {x : Nat → Operand} {s t : Emission} {emitted : Emitted}
    (h : Generates i x s emitted t) (hexit : ∀ exit, emitted ≠ .exit exit) :
    i.op ≠ .prim .ret ∧ i.op ≠ .prim .cacheRet ∧ i.op ≠ .prim .tailCall := by
  cases h with
  | @value op hop hplain | @effect op hop hplain | @test op hop hplain =>
    rw [hop]
    cases op <;> simp_all [PrimOp.isValue, PrimOp.isEffect, PrimOp.isTest]
  | arithmetic harith =>
    simp only [Instr.isArithmetic, Bool.or_eq_true, decide_eq_true_eq] at harith
    rcases harith with ((hop | hop) | hop) | hop <;> simp [hop]
  | parameter hop | openArea hop | push hop | forward hop | forwardCall hop | overflowed hop => simp [hop]
  | pass htarget =>
    refine ⟨?_, ?_, ?_⟩
    all_goals
      intro hop
      simp [Instr.passTarget?, hop] at htarget
  | call hop => rcases hop with hop | hop <;> simp [hop]
  | ret | tailCall => exact absurd rfl (hexit _)

theorem Generates.defined {i : Instr} {x : Nat → Operand} {s t : Emission} {emitted : Emitted}
    (h : Generates i x s emitted t) : t.defined = s.defined := by
  cases h <;> rfl

theorem Translates.runs {code : List Instr} {s s' : Emission} {body : List MachineInstr} {exit : Option Exit}
    (h : Translates words code s body exit s') {regs : Registers} {ρ : Meaning.Progress Word}
    {hold hold' : Holding} (ht : Tracks s regs ρ) (hhold : hold.Of s)
    (hsteps : code.foldlM Holding.step hold = some hold') (hnodup : (code.map (·.id)).Nodup)
    (hnew : ∀ i ∈ code, i.op ≠ .prim .phi → s.defined.contains i.id = false) :
    Agrees (Matches s' exit) ((machineWorld words call self).runCode code ρ)
      (do leave call self (← Machine.runBody call self body regs) exit) := by
  induction h generalizing regs ρ hold with
  | nil s => exact Agrees.pure ⟨rfl, ht⟩
  | @silent i rest s t s' body exit hs hgen _ ih =>
    obtain ⟨hold₁, hstep, hsteps⟩ := Option.bind_eq_some_iff.mp hsteps
    have hmirrors : Mirrors words call self regs ρ i .nothing t :=
      hgen.mirrors hs ht hhold hstep (hnew i (by simp))
    obtain ⟨ρ', hperform, ht'⟩ := hmirrors
    obtain ⟨hret, hcache, htail⟩ := hgen.no_exit (by simp)
    rw [Meaning.World.runCode_cons rest hret hcache htail, hperform, pure_bind]
    refine ih ht' (hhold.step hgen hstep) hsteps (List.nodup_cons.mp hnodup).2 fun j hj hop => ?_
    rw [hgen.defined]
    exact hnew j (by simp [hj]) hop
  | @effect i rest s t s' action body exit hs hgen _ ih =>
    obtain ⟨hold₁, hstep, hsteps⟩ := Option.bind_eq_some_iff.mp hsteps
    have hmirrors : Mirrors words call self regs ρ i (.effect action) t :=
      hgen.mirrors hs ht hhold hstep (hnew i (by simp))
    obtain ⟨ρ', hperform, ht'⟩ := hmirrors
    obtain ⟨hret, hcache, htail⟩ := hgen.no_exit (by simp)
    rw [Meaning.World.runCode_cons rest hret hcache htail, hperform, runBody_cons]
    simp only [bind_assoc, pure_bind]
    refine Agrees.bind_same fun _ => ?_
    refine ih ht' (hhold.step hgen hstep) hsteps (List.nodup_cons.mp hnodup).2 fun j hj hop => ?_
    rw [hgen.defined]
    exact hnew j (by simp [hj]) hop
  | @value i rest s t s' action body exit hs hgen _ ih =>
    obtain ⟨hold₁, hstep, hsteps⟩ := Option.bind_eq_some_iff.mp hsteps
    have hmirrors : Mirrors words call self regs ρ i (.value action) t :=
      hgen.mirrors hs ht hhold hstep (hnew i (by simp))
    obtain ⟨after, hperform, ht'⟩ := hmirrors
    obtain ⟨hret, hcache, htail⟩ := hgen.no_exit (by simp)
    rw [Meaning.World.runCode_cons rest hret hcache htail, hperform, runBody_cons]
    simp only [bind_assoc, pure_bind]
    refine Agrees.bind_same fun v => ?_
    have hhold' := hhold.step hgen hstep
    refine ih (ht' v) ⟨hhold'.areas, hhold'.forwards⟩ hsteps (List.nodup_cons.mp hnodup).2 fun j hj hop => ?_
    have hne : i.id ≠ j.id := fun heq =>
      (List.nodup_cons.mp hnodup).1 (List.mem_map.mpr ⟨j, hj, heq.symm⟩)
    change (t.defined.insert i.id).contains j.id = false
    rw [Std.TreeSet.contains_insert, hgen.defined, hnew j (by simp [hj]) hop, Bool.or_false]
    simpa using hne
  | @exit i s t exit hs hgen =>
    obtain ⟨hold₁, hstep, -⟩ := Option.bind_eq_some_iff.mp hsteps
    have hmirrors : Mirrors words call self regs ρ i (.exit exit) t :=
      hgen.mirrors hs ht hhold hstep (hnew i (by simp))
    cases exit with
    | ret a =>
      have hcode : (machineWorld words call self).runCode [i] ρ = pure (.returned (Machine.eval regs a)) := hmirrors
      rw [hcode]
      exact Agrees.pure ⟨by simp, rfl⟩
    | tailCall a =>
      have hcode : (machineWorld words call self).runCode [i] ρ =
        (do return .returned (← callFunction call (Machine.eval regs a) self)) := hmirrors
      rw [hcode]
      exact Agrees.bind_same fun v => Agrees.pure ⟨by simp, rfl⟩
    | jump edge => exact hmirrors.elim
    | branch condition ifTrue ifFalse => exact hmirrors.elim

theorem Translates.holding {code : List Instr} {s s' : Emission} {body : List MachineInstr}
    {exit : Option Exit} (h : Translates words code s body exit s') {hold hold' : Holding}
    (hhold : hold.Of s) (hsteps : code.foldlM Holding.step hold = some hold') : hold'.Of s' := by
  induction h generalizing hold with
  | nil s =>
    cases hsteps
    exact hhold
  | silent _ hgen _ ih | effect _ hgen _ ih =>
    obtain ⟨hold₁, hstep, hsteps⟩ := Option.bind_eq_some_iff.mp hsteps
    exact ih (hhold.step hgen hstep) hsteps
  | value _ hgen _ ih =>
    obtain ⟨hold₁, hstep, hsteps⟩ := Option.bind_eq_some_iff.mp hsteps
    have hhold' := hhold.step hgen hstep
    exact ih ⟨hhold'.areas, hhold'.forwards⟩ hsteps
  | exit _ hgen =>
    obtain ⟨hold₁, hstep, hsteps⟩ := Option.bind_eq_some_iff.mp hsteps
    cases hsteps
    exact hhold.step hgen hstep

theorem Translates.exits {code : List Instr} {s s' : Emission} {body : List MachineInstr} {x : Exit}
    (h : Translates words code s body (some x) s') : (∃ a, x = .ret a) ∨ ∃ a, x = .tailCall a := by
  generalize hexit : some x = exit at h
  induction h with
  | nil => cases hexit
  | silent _ _ _ ih | effect _ _ _ ih | value _ _ _ ih => exact ih hexit
  | exit _ hgen =>
    cases hexit
    cases hgen with
    | ret => exact .inl ⟨_, rfl⟩
    | tailCall => exact .inr ⟨_, rfl⟩

theorem Translates.defines {code : List Instr} {s s' : Emission} {body : List MachineInstr}
    {exit : Option Exit} (h : Translates words code s body exit s') {id : InstrId}
    (hid : s'.defined.contains id = true) : s.defined.contains id = true ∨ ∃ i ∈ code, i.id = id := by
  induction h with
  | nil s => exact .inl hid
  | silent _ hgen _ ih | effect _ hgen _ ih =>
    rcases ih hid with hold | ⟨i, hi, rfl⟩
    · exact .inl (hgen.defined ▸ hold)
    · exact .inr ⟨i, by simp [hi], rfl⟩
  | @value i rest s t s' action body exit _ hgen _ ih =>
    rcases ih hid with hold | ⟨j, hj, rfl⟩
    · change (t.defined.insert i.id).contains id = true at hold
      rw [Std.TreeSet.contains_insert, Bool.or_eq_true, hgen.defined] at hold
      rcases hold with heq | hold
      · exact .inr ⟨i, by simp, by simpa using heq⟩
      · exact .inl hold
    · exact .inr ⟨j, by simp [hj], rfl⟩
  | exit _ hgen => exact .inl (hgen.defined ▸ hid)

end

/-! ### Graphs -/

/-- Calls take their arguments from areas of their size, which are opened in the same block. -/
def Balances (g : Graph) : Prop := ∀ b, (g.code b).foldlM Holding.step {} = some {}

/-- Code generation that comes to a block has not met its results. -/
def Fresh (g : Graph) (s : Emission) (b : BlockId) : Prop :=
  ∀ i ∈ g.code b, i.op ≠ .prim .phi → s.defined.contains i.id = false

section

variable {g : Graph} {words : InstrId → Nat → Word} {s s' : Emission} {b : BlockId}

theorem contains_start {id : InstrId} (h : (s.start g b).defined.contains id = true) :
    s.defined.contains id = true ∨ id ∈ g.parameters b := by
  have hfold : ∀ {ids : List InstrId} {set : Std.TreeSet InstrId},
      (ids.foldl (·.insert ·) set).contains id = true → set.contains id = true ∨ id ∈ ids := by
    intro ids
    induction ids with
    | nil => exact .inl
    | cons first rest ih =>
      intro set hmem
      rcases ih hmem with hset | hmem
      · rw [Std.TreeSet.contains_insert, Bool.or_eq_true] at hset
        rcases hset with heq | hset
        · exact .inr (by simp_all)
        · exact .inl hset
      · exact .inr (List.mem_cons_of_mem _ hmem)
  change (if b.index ≠ 0 then (g.parameters b).foldl (·.insert ·) s.defined else s.defined).contains id = true at h
  split at h
  · exact hfold h
  · exact .inl h

theorem eq_phi_of_parameters (hl : g.Listed) {b' : BlockId} {i : Instr} (hi : i ∈ g.code b)
    (hid : i.id ∈ g.parameters b') : i.op = .prim .phi := by
  obtain ⟨phi, hphi, heq⟩ := List.mem_map.mp hid
  obtain ⟨hmem, hop⟩ := List.mem_filter.mp hphi
  obtain ⟨rfl, -⟩ := hl.eq_of_id hmem hi heq
  simpa using hop

theorem Fresh.start (h : Fresh g s b) (hl : g.Listed) : Fresh g (s.start g b) b := by
  intro i hi hop
  by_contra hcontains
  rcases contains_start (by simpa using hcontains) with hold | hparam
  · simp [h i hi hop] at hold
  · exact hop (eq_phi_of_parameters hl hi hparam)

theorem TranslatesBlock.code {content : MachineBlock} (h : TranslatesBlock g words b s content s') :
    content.id = b ∧ ∃ exit, Translates words (g.code b) (s.start g b) content.body exit s' := by
  cases h with
  | ended h => exact ⟨rfl, _, h⟩
  | fell h _ => exact ⟨rfl, _, h⟩

theorem TranslatesBlock.fresh {content : MachineBlock} (h : TranslatesBlock g words b s content s')
    (hl : g.Listed) {b' : BlockId} (hne : b ≠ b') (hfresh : Fresh g s b') : Fresh g s' b' := by
  intro i hi hop
  obtain ⟨-, exit, htrans⟩ := h.code
  by_contra hcontains
  rcases htrans.defines (by simpa using hcontains) with hstart | ⟨j, hj, heq⟩
  · rcases contains_start hstart with hold | hparam
    · simp [hfresh i hi hop] at hold
    · exact hop (eq_phi_of_parameters hl hi hparam)
  · exact hne (hl.eq_of_id hj hi heq).2

/-- Every block of the order has a block of the program, generated without open areas. -/
theorem TranslatesBlocks.find {order : List BlockId} {blocks : List MachineBlock}
    (h : TranslatesBlocks g words order s blocks) (hl : g.Listed) (hbal : Balances g) (hnodup : order.Nodup)
    (hhold : ({} : Holding).Of s) (hfresh : ∀ b ∈ order, Fresh g s b) (hb : b ∈ order) :
    ∃ t content t', blocks.find? (·.id == b) = some content ∧ ({} : Holding).Of t ∧ Fresh g t b ∧
      TranslatesBlock g words b t content t' := by
  induction h with
  | nil => cases hb
  | @cons first rest s t content blocks hblock _ ih =>
    rw [List.nodup_cons] at hnodup
    obtain ⟨hid, exit, htrans⟩ := hblock.code
    rw [List.find?_cons]
    rcases List.mem_cons.mp hb with rfl | hb'
    · exact ⟨s, content, t, by simp [hid], hhold, hfresh b (by simp), hblock⟩
    · have hne : first ≠ b := fun heq => hnodup.1 (heq ▸ hb')
      obtain ⟨u, found, u', hfind, hrest⟩ := ih hnodup.2
        (htrans.holding ⟨hhold.areas, hhold.forwards⟩ (hbal first))
        (fun b' hb' => hblock.fresh hl (fun heq => hnodup.1 (heq ▸ hb')) (hfresh b' (by simp [hb']))) hb'
      have hother : (content.id == b) = false := by simpa [hid] using hne
      exact ⟨u, found, u', by rw [hother]; exact hfind, hrest⟩

/-- Between blocks nothing is pending. -/
structure Rests (regs : Registers) (ρ : Meaning.Progress Word) : Prop where
  registers : ∀ id, ρ.regs id = regs.getD id default
  pushed : ρ.pushed = []
  forwarded : ρ.forwarded = none
  condition : ρ.condition = none
  arithmetic : ρ.arithmetic = none
  passed : ρ.passed = []

theorem Holding.Of.none_open (h : ({} : Holding).Of s) : s.areas = [] ∧ s.forwarded = none :=
  ⟨List.map_eq_nil_iff.mp h.areas, by simpa using h.forwards⟩

theorem Rests.tracks {regs : Registers} {ρ : Meaning.Progress Word} (h : Rests regs ρ)
    (hhold : ({} : Holding).Of s) : Tracks (s.start g b) regs ρ := by
  obtain ⟨hareas, hforwarded⟩ := hhold.none_open
  refine ⟨h.registers, ?_, ?_, h.condition, ?_, h.passed, fun a ha => ?_⟩
  · simp [Emission.start, h.pushed, hareas]
  · simp [Emission.start, h.forwarded, hforwarded]
  · simp [Emission.start, h.arithmetic]
  · rcases mem_pending.mp ha with ⟨area, harea, -⟩ | ⟨p, hp, -⟩ | ⟨c, hc, -⟩ | ⟨op, hop, -⟩ | ⟨p, hp, -⟩
    · simp [Emission.start, hareas] at harea
    · simp [Emission.start, hforwarded] at hp
    · cases hc
    · cases hop
    · cases hp

theorem getD_foldl_insert {args : List (InstrId × Word)} (hnodup : (args.map (·.1)).Nodup)
    (regs : Registers) (id : InstrId) :
    (args.foldl (fun regs (id, w) => regs.insert id w) regs).getD id default =
      (args.lookup id).getD (regs.getD id default) := by
  induction args generalizing regs with
  | nil => rfl
  | cons arg rest ih =>
    obtain ⟨id', w⟩ := arg
    rw [List.map_cons, List.nodup_cons] at hnodup
    rw [List.foldl_cons, ih hnodup.2, getD_insert, List.lookup_cons]
    by_cases heq : id = id'
    · subst heq
      have hnone : rest.lookup id = none := by
        rw [List.lookup_eq_none_iff]
        intro p hp
        simpa using fun heq : id = p.1 => hnodup.1 (List.mem_map.mpr ⟨p, hp, heq.symm⟩)
      simp [hnone]
    · have hother : (id == id') = false := by simpa using heq
      rw [if_neg heq, hother]

theorem lookup_map_snd {args : List (InstrId × Operand)} (f : Operand → Word) (id : InstrId) :
    (args.map fun p => (p.1, f p.2)).lookup id = (args.lookup id).map f := by
  induction args with
  | nil => rfl
  | cons arg rest ih =>
    rw [List.map_cons, List.lookup_cons, List.lookup_cons]
    split <;> simp_all

/-- An edge gives a parameter the latest value that was passed to it. -/
theorem Carries.lookup {params : List InstrId} {target : BlockId} {edge : Edge}
    (h : Carries params s target edge) {id : InstrId} (hid : id ∈ params) :
    ∃ a, s.phiArgs.lookup id = some a ∧ edge.args.lookup id = some a := by
  obtain ⟨-, hall⟩ := h
  generalize edge.args = args at hall
  induction hall with
  | nil => cases hid
  | @cons phi arg params args hfirst _ ih =>
    obtain ⟨id', a⟩ := arg
    obtain ⟨rfl, hlookup⟩ := hfirst
    rw [List.lookup_cons]
    by_cases heq : id = id'
    · subst heq
      exact ⟨a, hlookup, by simp⟩
    · have hother : (id == id') = false := by simpa using heq
      rw [hother]
      exact ih ((List.mem_cons.mp hid).resolve_left heq)

/-- An edge fills the parameters of its block as the graph does. -/
theorem Carries.enter {regs : Registers} {ρ : Meaning.Progress Word} {target : BlockId} {edge : Edge}
    (h : Carries (g.parameters target) s target edge) (hl : g.Listed) (ht : Tracks s regs ρ)
    (hhold : ({} : Holding).Of s) (call : Caller) (self : Activation) :
    Rests (Machine.pass regs edge) ((machineWorld words call self).enter g ρ target) := by
  obtain ⟨hareas, hforwarded⟩ := hhold.none_open
  have hkeys : edge.args.map (·.1) = g.parameters target := by
    have hall := h.2
    generalize g.parameters target = params, edge.args = args at hall
    induction hall with
    | nil => rfl
    | cons hfirst _ ih => rw [List.map_cons, hfirst.1, ih]
  have hnodup : (g.parameters target).Nodup := by
    refine (hl.code_nodup target).sublist ?_
    exact List.Sublist.map _ List.filter_sublist
  refine ⟨fun id => ?_, ?_, ?_, rfl, rfl, rfl⟩
  · have hmap : (edge.args.map fun p => (p.1, Machine.eval regs p.2)).map (·.1) = g.parameters target := by
      rw [List.map_map, ← hkeys]
      rfl
    rw [Machine.pass, getD_foldl_insert (hmap ▸ hnodup), lookup_map_snd (Machine.eval regs)]
    change (if id ∈ g.parameters target then (ρ.passed.lookup id).getD default else ρ.regs id) = _
    rw [ht.passed, lookup_map_snd (Machine.eval regs), ht.registers]
    split
    · rename_i hmem
      obtain ⟨a, hpassed, harg⟩ := h.lookup hmem
      rw [hpassed, harg]
      rfl
    · rename_i hmem
      have hnone : edge.args.lookup id = none := by
        rw [List.lookup_eq_none_iff]
        intro p hp
        simpa using fun heq : id = p.1 => hmem (hkeys ▸ List.mem_map.mpr ⟨p, hp, heq.symm⟩)
      rw [hnone]
      rfl
  · change ρ.pushed = []
    simp [ht.pushed, hareas]
  · change ρ.forwarded = none
    simp [ht.forwarded, hforwarded]

variable {call : Caller} {self : Activation}

/-- How a graph goes on after the instructions of a block. -/
def depart {V ε σ : Type} (W : Meaning.World V ε σ) (g : Graph) (jumps : Nat) (b : BlockId) :
    Meaning.Departure V → EStateM ε σ V
  | .returned value => return value
  | .fell s =>
    match Meaning.next? (g.successors b) s.condition with
    | some target => W.runAt g jumps target (W.enter g s target)
    | none => throw W.stuck

/-- How the machine goes on after the instructions of a block. -/
def follow (call : Caller) (p : Program) (self : Activation) (jumps : Nat) (exit : Exit) (regs : Registers) :
    RunM Word :=
  match exit with
  | .ret a => return Machine.eval regs a
  | .tailCall target => callFunction call (Machine.eval regs target) self
  | .jump edge => Machine.runFrom call p self jumps edge.target (Machine.pass regs edge)
  | .branch condition ifTrue ifFalse =>
    let edge := if holds regs condition then ifTrue else ifFalse
    Machine.runFrom call p self jumps edge.target (Machine.pass regs edge)

theorem runFrom_block {p : Program} {content : MachineBlock} (h : p.block? b = some content) (jumps : Nat)
    (regs : Registers) : Machine.runFrom call p self (jumps + 1) b regs = (do
      follow call p self jumps content.exit (← Machine.runBody call self content.body regs)) := by
  rw [Machine.runFrom, h]
  rfl

/-- A program does what its graph does, from a block that control can reach. -/
theorem runAt_eq_runFrom {p : Program} {order : List BlockId} (hl : g.Listed) (hbal : Balances g)
    (horder : g.reversePostorder = .ok order) {start : Emission} (hhold : ({} : Holding).Of start)
    (hfresh : ∀ b ∈ order, Fresh g start b) (htrans : TranslatesBlocks g words order start p.blocks)
    (jumps : Nat) : ∀ {b : BlockId} {regs : Registers} {ρ : Meaning.Progress Word},
      Relation.ReflTransGen g.Edge ⟨0⟩ b → Rests regs ρ →
      (machineWorld words call self).runAt g jumps b ρ = Machine.runFrom call p self jumps b regs := by
  induction jumps with
  | zero => exact fun _ _ => rfl
  | succ jumps ih =>
    intro b regs ρ hreach hrests
    obtain ⟨s, content, s', hfind, hhold', hfresh', hblock⟩ :=
      htrans.find hl hbal (Graph.nodup_of_reversePostorder horder) hhold hfresh
        (Graph.mem_of_reversePostorder horder hreach)
    have hfound : p.block? b = some content := hfind
    have hruns : ∀ {exit : Option Exit}, Translates words (g.code b) (s.start g b) content.body exit s' →
        Agrees (Matches s' exit) ((machineWorld words call self).runCode (g.code b) ρ)
          (do leave call self (← Machine.runBody call self content.body regs) exit) := fun h =>
      h.runs (hrests.tracks hhold') ⟨hhold'.areas, hhold'.forwards⟩ (hbal b) (hl.code_nodup b)
        (hfresh'.start hl)
    have hcontinue : ∀ {exit : Option Exit} (next : Registers ⊕ Word → RunM Word),
        Translates words (g.code b) (s.start g b) content.body exit s' →
        (∀ d r, Matches s' exit d r → Agrees Eq (depart (machineWorld words call self) g jumps b d) (next r)) →
        Agrees Eq ((machineWorld words call self).runAt g (jumps + 1) b ρ)
          (Machine.runBody call self content.body regs >>= fun regs => leave call self regs exit >>= next) :=
      fun next h hnext => by
        have hall := (hruns h).bind hnext
        rw [bind_assoc] at hall
        exact hall
    rw [runFrom_block hfound]
    apply Agrees.eq
    cases hblock with
    | @ended params body exit s' h =>
      have hdone := hcontinue (Sum.elim (fun _ => throw .wildJump) pure) h ?_
      · rcases h.exits with ⟨a, rfl⟩ | ⟨a, rfl⟩
        · exact hdone
        · simp only [leave, bind_assoc, pure_bind, Sum.elim_inr, bind_pure] at hdone
          exact hdone
      · rintro (ρ' | v) (regs' | w) hmatch
        · cases hmatch.1
        · exact hmatch.elim
        · exact hmatch.elim
        · obtain rfl := hmatch.2
          exact Agrees.pure rfl
    | @fell params body exit s' h hleaves =>
      have hend : ({} : Holding).Of s' := h.holding ⟨hhold'.areas, hhold'.forwards⟩ (hbal b)
      have hgo : ∀ {target : BlockId} {edge : Edge} {regs' : Registers} {ρ' : Meaning.Progress Word},
          g.Edge b target → Carries (g.parameters target) s' target edge → Tracks s' regs' ρ' →
          (machineWorld words call self).runAt g jumps target
            ((machineWorld words call self).enter g ρ' target) =
            Machine.runFrom call p self jumps edge.target (Machine.pass regs' edge) := by
        intro target edge regs' ρ' hedge hcarries ht
        rw [hcarries.1]
        exact ih (hreach.tail hedge) (hcarries.enter hl ht hend call self)
      refine hcontinue (Sum.elim (follow call p self jumps exit) pure) h ?_
      rintro (ρ' | v) (regs' | w) hmatch
      · have ht := hmatch.2
        have hedges : ∀ target ∈ g.successors b, g.Edge b target := fun _ h => h
        simp only [depart, Sum.elim_inl]
        generalize g.successors b = next at hleaves hedges
        cases hleaves with
        | jump hcarries =>
          simp only [Meaning.next?, follow]
          rw [hgo (hedges _ (by simp)) hcarries ht]
          exact Agrees.refl _
        | branch hcondition hyes hno =>
          rw [ht.condition, hcondition, Option.map_some]
          simp only [Meaning.next?, follow]
          split
          · rw [hgo (hedges _ (by simp)) hyes ht]
            exact Agrees.refl _
          · rw [hgo (hedges _ (by simp)) hno ht]
            exact Agrees.refl _
      · exact hmatch.elim
      · exact hmatch.elim
      · exact absurd rfl hmatch.1

end

/-- The program of a graph does what the graph does, with the words that code generation got for the
constants in blocks that control can reach, for each call anew. -/
theorem emitProgram_runs {scope : EmissionScope} {e e' : Engine} {p : Program} {record : CodeRecord}
    (hl : scope.graph.Listed) (hbal : Balances scope.graph)
    (h : emitProgram scope e = .ok (p, record) e') : ∃ (order : List BlockId) (words : InstrId → Nat → Word)
      (log : List (Const × Word)), Answered scope.resolve e log e' ∧
      (∀ b, Relation.ReflTransGen scope.graph.Edge ⟨0⟩ b → b ∈ order) ∧
      (∀ b ∈ order, AllNamed (scope.graph.code b) words log) ∧ Placed words (order.flatMap scope.graph.code) log ∧
      ∀ call self jumps, Machine.runFrom call p self jumps ⟨0⟩ ∅ =
        (machineWorld words call self).run scope.graph jumps := by
  obtain ⟨order, words, log, horder, hanswered, hnamed, hplaced, htrans⟩ := emitProgram_translates hl h
  refine ⟨order, words, log, hanswered, fun b hb => Graph.mem_of_reversePostorder horder hb, hnamed, hplaced,
    fun call self jumps => ?_⟩
  exact (runAt_eq_runFrom hl hbal horder ⟨rfl, rfl⟩ (fun b _ i _ _ => rfl) htrans jumps .refl
    ⟨fun id => rfl, rfl, rfl, rfl, rfl, rfl⟩).symm

end Engine
end ScriptEngine
