import ScriptEngine.Proofs.Machine.Equality
import ScriptEngine.Proofs.Machine.Instances
import ScriptEngine.Proofs.Machine.Slots

/-!
What calls of stubs come to. A stub of an operator answers by itself, or it asks the host about its operands;
`log` asks the host about its argument, and the function in the place of something that cannot be called does
nothing. An instance is made in steps, of which the last is a call of the function.
-/

namespace ScriptEngine

open State Builder

namespace Engine

open Machine (argumentAt callFunction enter maxJumps)
open Meaning (Progress)

variable {e t : Engine} {T : Contents} {s : Stub} {w : Word}

/-! ### Operators -/

/-- A stub of an operator answers with a small integer or a boolean, or with what the host says. -/
inductive Replies (e : Engine) (name : String) (args : List Word) (call : RunM Word) : Prop
  | smi {w : Word} : w.isSmi = true → call e = .ok w e.entered → Replies e name args call
  | bool (b : Bool) {t : Engine} : call e = .ok (e.heap.boolean b) t → Noted e t e.heap → Replies e name args call
  | host {id : Nat} : callbackId name = .ok id → call e = callHost (.smi id :: args) e.entered → Replies e name args call

section

variable {words : InstrId → Nat → Word} {depth : Nat} {self : Activation}

/-- Results of arithmetic that does not overflow are small integers. -/
theorem isSmi_computed {op : PrimOp} (hop : op ∈ [PrimOp.add, .sub, .mul]) {a b : Word} (ha : a.isSmi = true)
    (hb : b.isSmi = true) : (Machine.compute ∅ (op.arithmetic (.word a) (.word b))).1.isSmi = true := by
  obtain ⟨m, hm, hm', rfl⟩ := Word.eq_smi ha
  obtain ⟨n, hn, hn', rfl⟩ := Word.eq_smi hb
  rw [compute_exact ⟨hm, hm'⟩ ⟨hn, hn'⟩ hop]
  exact Word.smi_isSmi _

variable (shelved : Shelved T e) (calm : e.Calm)

include shelved calm

theorem Shelved.arithmetic_replies {op : PrimOp} {name : String} {body : BuildM Unit}
    (hop : (op, name) ∈ [(PrimOp.add, Stub.binaryName .add), (.sub, Stub.binaryName .sub), (.mul, Stub.binaryName .mul)])
    (hs : e.stubs.compiled? name = some s) (hmem : (name, .body body) ∈ StubLibrary.standardSources)
    (hbuild : build name body = .ok (arithmeticGraph op name)) :
    Replies e name [argumentAt self.args 0, argumentAt self.args 1]
      (callFunction (enter (depth + 2)) s.function self) := by
  have hmem' : op ∈ [PrimOp.add, .sub, .mul] := by
    simp only [List.mem_cons, List.not_mem_nil, or_false, Prod.mk.injEq] at hop ⊢
    tauto
  obtain ⟨words, hstanding, hruns⟩ := shelved.stub_runs calm hs hmem hbuild (stublike_arithmetic hop)
  obtain ⟨jumps, hjumps⟩ : ∃ jumps, maxJumps = jumps + 4 := exists_maxJumps (by decide)
  have hrun := hruns (depth + 1) self
  rw [hjumps, arithmetic_runs hmem'] at hrun
  simp only at hrun
  split at hrun
  · rename_i hsmall
    simp only [Bool.and_eq_true] at hsmall
    exact .smi (isSmi_computed hmem' hsmall.1.1 hsmall.1.2) hrun
  · obtain ⟨id, hid, hhost⟩ := hstanding.calls_host shelved
      (.single (Graph.edge_ofRows (by decide) (by decide)))
      (show (arithmeticGraph op name).code ⟨1⟩ = [] ++ (number 7 (hostRows name [⟨0⟩, ⟨1⟩] 7 1) ++
        [⟨⟨12⟩, .prim .ret, [.value ⟨11⟩], ⟨1⟩⟩]) from Graph.code_ofRows (by decide)) (by decide)
    exact .host hid (hrun.trans (hhost depth _ rfl))

theorem Shelved.order_replies {cond : Cond} {name : String} {body : BuildM Unit}
    (hg : Stublike (orderGraph cond name))
    (hs : e.stubs.compiled? name = some s) (hmem : (name, .body body) ∈ StubLibrary.standardSources)
    (hbuild : build name body = .ok (orderGraph cond name)) :
    Replies e name [argumentAt self.args 0, argumentAt self.args 1]
      (callFunction (enter (depth + 2)) s.function self) := by
  obtain ⟨words, hstanding, hruns⟩ := shelved.stub_runs calm hs hmem hbuild hg
  have hright : (orderGraph cond name).Edge ⟨0⟩ ⟨2⟩ := Graph.edge_ofRows (by decide) (by decide)
  have hfast : (orderGraph cond name).Edge ⟨2⟩ ⟨3⟩ := Graph.edge_ofRows (by decide) (by decide)
  have hreach : ∀ b, (orderGraph cond name).Edge ⟨3⟩ b →
      Relation.ReflTransGen (orderGraph cond name).Edge ⟨0⟩ b :=
    fun _ hb => ((Relation.ReflTransGen.single hright).tail hfast).tail hb
  have htrue : words ⟨5⟩ 0 = e.heap.boolean true :=
    hstanding.bool (hreach ⟨4⟩ (Graph.edge_ofRows (by decide) (by decide))) (by
      rw [show (orderGraph cond name).code ⟨4⟩ = [⟨⟨5⟩, .prim .literal, [.const (.bool true)], ⟨4⟩⟩,
        ⟨⟨6⟩, .prim .ret, [.value ⟨5⟩], ⟨4⟩⟩] from Graph.code_ofRows (by decide)]
      exact .head _)
  have hfalse : words ⟨7⟩ 0 = e.heap.boolean false :=
    hstanding.bool (hreach ⟨5⟩ (Graph.edge_ofRows (by decide) (by decide))) (by
      rw [show (orderGraph cond name).code ⟨5⟩ = [⟨⟨7⟩, .prim .literal, [.const (.bool false)], ⟨5⟩⟩,
        ⟨⟨8⟩, .prim .ret, [.value ⟨7⟩], ⟨5⟩⟩] from Graph.code_ofRows (by decide)]
      exact .head _)
  obtain ⟨jumps, hjumps⟩ : ∃ jumps, maxJumps = jumps + 4 := exists_maxJumps (by decide)
  have hrun := hruns (depth + 1) self
  rw [hjumps, order_runs] at hrun
  simp only [htrue, hfalse] at hrun
  split at hrun
  · refine .bool (cond.holds (argumentAt self.args 0) (argumentAt self.args 1)) (hrun.trans ?_) (noted_entered e)
    cases cond.holds (argumentAt self.args 0) (argumentAt self.args 1) <;> rfl
  · obtain ⟨id, hid, hhost⟩ := hstanding.calls_host shelved
      (.single (Graph.edge_ofRows (by decide) (by decide)))
      (show (orderGraph cond name).code ⟨1⟩ = [] ++ (number 9 (hostRows name [⟨0⟩, ⟨1⟩] 9 1) ++
        [⟨⟨14⟩, .prim .ret, [.value ⟨13⟩], ⟨1⟩⟩]) from Graph.code_ofRows (by decide)) (by decide)
    exact .host hid (hrun.trans (hhost depth _ rfl))

theorem Shelved.negate_replies (hs : e.stubs.compiled? "unary/-" = some s) :
    Replies e "unary/-" [argumentAt self.args 0] (callFunction (enter (depth + 2)) s.function self) := by
  obtain ⟨words, hstanding, hruns⟩ := shelved.stub_runs calm hs (by simp [StubLibrary.standardSources])
    (build_negate "unary/-") (StubRows.stublike (by decide +kernel))
  obtain ⟨jumps, hjumps⟩ : ∃ jumps, maxJumps = jumps + 3 := exists_maxJumps (by decide)
  have hrun := hruns (depth + 1) self
  rw [hjumps, negate_runs] at hrun
  simp only at hrun
  split at hrun
  · rename_i hsmall
    rw [Bool.and_eq_true] at hsmall
    refine .smi ?_ hrun
    obtain ⟨n, hn, hn', heq⟩ := Word.eq_smi hsmall.1
    rw [heq, Word.neg_signed, Word.signed_smi hn hn', ← Int.mul_neg]
    exact Word.smi_isSmi _
  · obtain ⟨id, hid, hhost⟩ := hstanding.calls_host shelved
      (.single (Graph.edge_ofRows (by decide) (by decide)))
      (show (negateGraph "unary/-").code ⟨2⟩ = [] ++ (number 5 (hostRows "unary/-" [⟨0⟩] 5 2) ++
        [⟨⟨9⟩, .prim .ret, [.value ⟨8⟩], ⟨2⟩⟩]) from Graph.code_ofRows (by decide)) (by decide)
    exact .host hid (hrun.trans (hhost depth _ rfl))

end

/-- `instanceof` asks the host. -/
def instanceGraph : Graph :=
  .ofRows "binary/instanceof" (asking [(.stubArg, [raw 0], 0), (.stubArg, [raw 1], 0)] "binary/instanceof" [⟨0⟩, ⟨1⟩]) [[]]

theorem build_instance : build "binary/instanceof" (Stub.binaryBody .instanceOf) = .ok instanceGraph := by cbv

theorem stublike_instance : Stublike instanceGraph := StubRows.stublike (by decide +kernel)

/-- A stub of a binary operator answers by itself or asks the host. -/
theorem Stocked.binary_replies (stocked : Stocked T e) (calm : e.Calm) (op : BinaryOp)
    (hs : e.stubs.compiled? (Stub.binaryName op) = some s) (depth : Nat) (self : Activation)
    (hvalue : (argumentAt self.args 0).isSmi = true ∨ ∃ c, T (argumentAt self.args 0) = some c) :
    Replies e (Stub.binaryName op) [argumentAt self.args 0, argumentAt self.args 1]
      (callFunction (enter (depth + 2)) s.function self) := by
  have hmem : (Stub.binaryName op, .body (Stub.binaryBody op)) ∈ StubLibrary.standardSources := by
    simp only [StubLibrary.standardSources, List.mem_append, List.mem_map]
    exact .inl (.inr ⟨op, by cases op <;> decide, rfl⟩)
  have hequality : ∀ whenEqual, (op, whenEqual) ∈ equalities → Replies e (Stub.binaryName op)
      [argumentAt self.args 0, argumentAt self.args 1] (callFunction (enter (depth + 2)) s.function self) := by
    intro whenEqual hop
    obtain ⟨t, hcall, hnoted⟩ := stocked.equality_agrees calm hop hs depth self rfl rfl hvalue
    exact .bool _ hcall hnoted
  cases op with
  | add => exact stocked.arithmetic_replies calm (by simp) hs hmem (build_arithmetic (by simp) _)
  | sub => exact stocked.arithmetic_replies calm (by simp) hs hmem (build_arithmetic (by simp) _)
  | mul => exact stocked.arithmetic_replies calm (by simp) hs hmem (build_arithmetic (by simp) _)
  | lt => exact stocked.order_replies calm (StubRows.stublike (by decide +kernel)) hs hmem (build_order .lt _)
  | le => exact stocked.order_replies calm (StubRows.stublike (by decide +kernel)) hs hmem (build_order .le _)
  | strictEq => exact hequality true (by simp [equalities])
  | strictNe => exact hequality false (by simp [equalities])
  | instanceOf =>
    have hasks : ∃ id, callbackId (Stub.binaryName .instanceOf) = .ok id ∧ ∀ depth self,
        callFunction (enter (depth + 2)) s.function self e =
          callHost (.smi id :: [argumentAt self.args 0, argumentAt self.args 1]) e.entered :=
      stocked.asking_runs calm hs hmem build_instance stublike_instance (by decide) fun _ _ self => ⟨_, rfl, fun _ => rfl⟩
    obtain ⟨id, hid, hrun⟩ := hasks
    exact .host hid (hrun depth self)

/-- A stub of a unary operator answers by itself or asks the host. -/
theorem Stocked.unary_replies (stocked : Stocked T e) (calm : e.Calm) (op : UnaryOp)
    (hs : e.stubs.compiled? ("unary/" ++ op.symbol) = some s) (depth : Nat) (self : Activation) :
    Replies e ("unary/" ++ op.symbol) [argumentAt self.args 0] (callFunction (enter (depth + 3)) s.function self) := by
  cases op with
  | neg => exact stocked.negate_replies calm hs
  | not =>
    obtain ⟨t, hcall, hnoted⟩ := stocked.not_agrees calm hs depth self rfl
    exact .bool _ hcall hnoted

/-! ### Functions that every engine has -/

def noopGraph : Graph := .ofRows "noop" [(.literal, [.const .undefined], 0), (.ret, [.value ⟨0⟩], 0)] [[]]

theorem build_noop : build "noop" (Stub.retLiteral .undefined) = .ok noopGraph := by cbv

theorem stublike_noop : Stublike noopGraph := StubRows.stublike (by decide +kernel)

def logRows : List Row :=
  (.arg, [raw 0], 0) :: (hostRows "log" [⟨0⟩] 1 0 ++ [(.literal, [.const .undefined], 0), (.ret, [.value ⟨5⟩], 0)])

def logGraph : Graph := .ofRows "log" logRows [[]]

theorem build_log : build "log" StubLibrary.logBody = .ok logGraph := by cbv

theorem stublike_log : Stublike logGraph := StubRows.stublike (by decide +kernel)

section

variable (shelved : Shelved T e) (calm : e.Calm)

include shelved calm

/-- The function in the place of something that cannot be called does nothing. -/
theorem Shelved.noop_runs (hs : e.stubs.compiled? "noop" = some s) (depth : Nat) (self : Activation) :
    callFunction (enter (depth + 1)) s.function self e = .ok e.heap.undefined e.entered := by
  obtain ⟨words, hstanding, hruns⟩ := shelved.line_runs calm hs (by simp [StubLibrary.standardSources]) build_noop
    stublike_noop
  obtain ⟨_, hword⟩ := hstanding.row (k := 0) rfl (by decide) .refl (i := 0) rfl rfl
  exact hruns (congrArg (fun w => EStateM.Result.ok (Meaning.Departure.returned w) e.entered) hword)

/-- What a call gives to a function with one parameter. -/
def firstArgument (e : Engine) (self : Activation) : Word :=
  if (Word.ofInt 0).toNat < self.argc.toNat then argumentAt self.args 0 else e.heap.undefined

/-- The function `log` asks the host to write its argument, and answers `undefined`. -/
theorem Shelved.log_runs (hs : e.stubs.compiled? "log" = some s) : ∃ id, callbackId "log" = .ok id ∧ ∀ depth self,
    callFunction (enter (depth + 2)) s.function self e =
      (do
        let _ ← callHost [.smi id, e.firstArgument self]
        return e.heap.undefined : RunM Word) e.entered := by
  obtain ⟨words, hstanding, hruns⟩ := shelved.stub_runs calm hs (by simp [StubLibrary.standardSources]) build_log
    stublike_log
  have hcode : logGraph.code ⟨0⟩ = number 0 [(.arg, [raw 0], 0)] ++ (number 1 (hostRows "log" [⟨0⟩] 1 0) ++
      [⟨⟨5⟩, .prim .literal, [.const .undefined], ⟨0⟩⟩, ⟨⟨6⟩, .prim .ret, [.value ⟨5⟩], ⟨0⟩⟩]) := stublike_log.line_code
  obtain ⟨id, hid, hhost⟩ := hstanding.calls_host shelved .refl hcode (by decide)
  obtain ⟨_, hword⟩ := hstanding.row (k := 5) rfl (by decide) .refl (i := 0) rfl rfl
  obtain ⟨_, habsent⟩ := hstanding.word .refl (i := ⟨⟨0⟩, .prim .arg, [raw 0], ⟨0⟩⟩) (by rw [hcode]; exact .head _) rfl (k := 1)
    (.inr rfl) rfl
  obtain ⟨jumps, hjumps⟩ : ∃ jumps, maxJumps = jumps + 1 := exists_maxJumps (by decide)
  refine ⟨id, hid, fun depth self => ?_⟩
  have hrun : (machineWorld words (enter (depth + 1)) self).run logGraph (jumps + 1) = (do
      let _ ← askHost (enter (depth + 1)) (words ⟨4⟩ 0) (words ⟨2⟩ 0) (words ⟨4⟩ 2) [e.firstArgument self]
      return e.heap.undefined : RunM Word) := by
    refine runAt_returned ?_
    have harg : ∀ rest, (machineWorld words (enter (depth + 1)) self).runCode (number 0 [(.arg, [raw 0], 0)] ++ rest)
        { regs := fun _ => default } = (machineWorld words (enter (depth + 1)) self).runCode rest
          (Progress.setReg { regs := fun _ => default } ⟨0⟩ (e.firstArgument self)) := fun rest => by
      rw [firstArgument, ← habsent]
      rfl
    rw [hcode, ← hword]
    refine (harg _).trans ?_
    rw [runCode_hostRows, bind_assoc]
    rfl
  rw [hruns, hjumps, hrun]
  exact bind_congr (hhost depth [e.firstArgument self] rfl) fun _ _ _ => rfl

end

end Engine
end ScriptEngine
