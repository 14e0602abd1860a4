import ScriptEngine.Proofs.Machine.Listing
import ScriptEngine.Proofs.Machine.Words

/-!
Operators on small integers. Stubs of operators answer by themselves as long as the result is a small
integer, and only ask the host if it is not.
-/

namespace ScriptEngine

open Builder

/-! ### Code of the stubs -/

def arithmeticRows (op : PrimOp) (name : String) : List Row :=
  [(.stubArg, [raw 0], 0), (.stubArg, [raw 1], 0), (.isSmi, [.value ⟨0⟩], 0),
    (.isSmi, [.value ⟨1⟩], 2),
    (op, [.value ⟨0⟩, .value ⟨1⟩], 3), (.overflowed, [], 3),
    (.ret, [.value ⟨4⟩], 4)] ++
  (hostRows name [⟨0⟩, ⟨1⟩] 7 1).concat (.ret, [.value ⟨11⟩], 1)

def arithmeticGraph (op : PrimOp) (name : String) : Graph :=
  .ofRows name (arithmeticRows op name) [[⟨2⟩, ⟨1⟩], [], [⟨3⟩, ⟨1⟩], [⟨1⟩, ⟨4⟩], []]

theorem build_arithmetic {op : PrimOp} (hop : op ∈ [PrimOp.add, .sub, .mul]) (name : String) :
    build name (do
      let left ← stubArg 0
      let right ← stubArg 1
      Stub.arithmeticBody op name left right) = .ok (arithmeticGraph op name) := by
  simp only [List.mem_cons, List.not_mem_nil, or_false] at hop
  rcases hop with rfl | rfl | rfl
  all_goals cbv

def orderRows (cond : Cond) (name : String) : List Row :=
  [(.stubArg, [raw 0], 0), (.stubArg, [raw 1], 0), (.isSmi, [.value ⟨0⟩], 0),
    (.isSmi, [.value ⟨1⟩], 2),
    (.compareSmi, [.value ⟨0⟩, .value ⟨1⟩, .const (.cond cond)], 3),
    (.literal, [.const (.bool true)], 4), (.ret, [.value ⟨5⟩], 4),
    (.literal, [.const (.bool false)], 5), (.ret, [.value ⟨7⟩], 5)] ++
  (hostRows name [⟨0⟩, ⟨1⟩] 9 1).concat (.ret, [.value ⟨13⟩], 1)

def orderGraph (cond : Cond) (name : String) : Graph :=
  .ofRows name (orderRows cond name) [[⟨2⟩, ⟨1⟩], [], [⟨3⟩, ⟨1⟩], [⟨4⟩, ⟨5⟩], [], []]

theorem build_order (cond : Cond) (name : String) :
    build name (do
      let left ← stubArg 0
      let right ← stubArg 1
      Stub.orderBody cond name left right) = .ok (orderGraph cond name) := by cbv

def negateRows : List Row :=
  [(.stubArg, [raw 0], 0), (.isSmi, [.value ⟨0⟩], 0),
    (.neg, [.value ⟨0⟩], 1), (.overflowed, [], 1),
    (.ret, [.value ⟨2⟩], 3)] ++
  (hostRows "unary/-" [⟨0⟩] 5 2).concat (.ret, [.value ⟨8⟩], 2)

def negateGraph (name : String) : Graph := .ofRows name negateRows [[⟨1⟩, ⟨2⟩], [⟨2⟩, ⟨3⟩], [], []]

theorem build_negate (name : String) : build name Stub.negateBody = .ok (negateGraph name) := by cbv

/-! ### Runs -/

namespace Engine

open Machine (argumentAt)
open Meaning (Progress)

variable {words : InstrId → Nat → Word} {call : Caller} {self : Activation} {name : String}

/-- A graph that looks whether two arguments are small integers. If they are, it goes on in block 3;
otherwise it asks the host. -/
structure BothSmis (name : String) (n : Nat) (g : Graph) : Prop where
  entry : g.code ⟨0⟩ = [⟨⟨0⟩, .prim .stubArg, [raw 0], ⟨0⟩⟩, ⟨⟨1⟩, .prim .stubArg, [raw 1], ⟨0⟩⟩,
    ⟨⟨2⟩, .prim .isSmi, [.value ⟨0⟩], ⟨0⟩⟩]
  slow : g.code ⟨1⟩ = number n (hostRows name [⟨0⟩, ⟨1⟩] n 1) ++ [⟨⟨n + 5⟩, .prim .ret, [.value ⟨n + 4⟩], ⟨1⟩⟩]
  right : g.code ⟨2⟩ = [⟨⟨3⟩, .prim .isSmi, [.value ⟨1⟩], ⟨2⟩⟩]
  entryNext : g.successors ⟨0⟩ = [⟨2⟩, ⟨1⟩]
  rightNext : g.successors ⟨2⟩ = [⟨3⟩, ⟨1⟩]
  parameters : ∀ b, g.parameters b = []

/-- The arguments of a stub stand in its first two registers. -/
def Holds (self : Activation) (s : Progress Word) : Prop :=
  s.regs ⟨0⟩ = argumentAt self.args 0 ∧ s.regs ⟨1⟩ = argumentAt self.args 1

section

variable {g : Graph} {n : Nat} (h : BothSmis name n g)

include h

theorem BothSmis.asks (jumps : Nat) {s : Progress Word} (hs : Holds self s) :
    (machineWorld words call self).runAt g (jumps + 1) ⟨1⟩ s = askHost call (words ⟨n + 4⟩ 0) (words ⟨n + 2⟩ 0)
      (words ⟨n + 4⟩ 2) [argumentAt self.args 0, argumentAt self.args 1] := by
  refine runAt_returned ?_
  rw [h.slow, runCode_hostRows]
  simp only [List.map_cons, List.map_nil, hs.1, hs.2, runCode_ret]
  simp

theorem BothSmis.runs (words : InstrId → Nat → Word) (call : Caller) (self : Activation) :
    ∃ s : Progress Word, Holds self s ∧ ∀ jumps, (machineWorld words call self).run g (jumps + 3) =
      if (argumentAt self.args 0).isSmi && (argumentAt self.args 1).isSmi then
        (machineWorld words call self).runAt g (jumps + 1) ⟨3⟩ s
      else askHost call (words ⟨n + 4⟩ 0) (words ⟨n + 2⟩ 0) (words ⟨n + 4⟩ 2)
        [argumentAt self.args 0, argumentAt self.args 1] := by
  have hright : ∀ (jumps : Nat) (s : Progress Word), (machineWorld words call self).runAt g (jumps + 1) ⟨2⟩ s =
      (machineWorld words call self).runAt g jumps (if (s.regs ⟨1⟩).isSmi then ⟨3⟩ else ⟨1⟩)
        (s.tested (s.regs ⟨1⟩).isSmi).next := fun jumps s =>
    runAt_branched (by rw [h.right, runCode_isSmi, runCode_nil]) h.rightNext rfl (h.parameters _) (h.parameters _)
  obtain ⟨s, hs, hentry⟩ : ∃ s : Progress Word, Holds self s ∧ ∀ jumps,
      (machineWorld words call self).run g (jumps + 1) =
        (machineWorld words call self).runAt g jumps (if (argumentAt self.args 0).isSmi then ⟨2⟩ else ⟨1⟩) s := by
    refine ⟨_, ⟨?_, ?_⟩, fun jumps => runAt_branched (by rw [h.entry, runCode_stubArg (by decide),
      runCode_stubArg (by decide), runCode_isSmi, runCode_nil]) h.entryNext rfl (h.parameters _) (h.parameters _)⟩
    · rfl
    · rfl
  refine ⟨(s.tested (argumentAt self.args 1).isSmi).next, hs, fun jumps => ?_⟩
  rw [hentry]
  cases (argumentAt self.args 0).isSmi with
  | false => exact h.asks (jumps + 1) hs
  | true =>
    rw [if_pos rfl, hright, hs.2]
    cases (argumentAt self.args 1).isSmi with
    | false => exact h.asks jumps hs
    | true => rfl

end

/-- What the stub of an arithmetic operator answers. -/
theorem arithmetic_runs {op : PrimOp} (hop : op ∈ [PrimOp.add, .sub, .mul]) (jumps : Nat) :
    (machineWorld words call self).run (arithmeticGraph op name) (jumps + 4) =
      let a := argumentAt self.args 0
      let b := argumentAt self.args 1
      let result := Machine.compute ∅ (op.arithmetic (.word a) (.word b))
      if a.isSmi && b.isSmi && !result.2 then pure result.1
      else askHost call (words ⟨11⟩ 0) (words ⟨9⟩ 0) (words ⟨11⟩ 2) [a, b] := by
  have h : BothSmis name 7 (arithmeticGraph op name) := by
    refine ⟨Graph.code_ofRows (by decide), Graph.code_ofRows (by decide), Graph.code_ofRows (by decide),
      Graph.successors_ofRows (by decide), Graph.successors_ofRows (by decide),
      Graph.parameters_ofRows fun row hrow => ?_⟩
    have hne : op ≠ .phi := by
      rintro rfl
      simp at hop
    simp [arithmeticRows, hostRows, pushRows] at hrow
    rcases hrow with rfl | rfl | rfl | rfl | rfl | rfl | rfl | rfl | rfl | rfl | rfl | rfl | rfl <;> simp [hne]
  have hcode : (arithmeticGraph op name).code ⟨3⟩ =
      [⟨⟨4⟩, .prim op, [.value ⟨0⟩, .value ⟨1⟩], ⟨3⟩⟩, ⟨⟨5⟩, .prim .overflowed, [], ⟨3⟩⟩] :=
    Graph.code_ofRows (by decide)
  have hdone : (arithmeticGraph op name).code ⟨4⟩ = [⟨⟨6⟩, .prim .ret, [.value ⟨4⟩], ⟨4⟩⟩] :=
    Graph.code_ofRows (by decide)
  obtain ⟨s, hs, hruns⟩ := h.runs words call self
  simp only
  rw [hruns (jumps + 1)]
  cases hsmall : (argumentAt self.args 0).isSmi && (argumentAt self.args 1).isSmi with
  | false => simp
  | true =>
    rw [if_pos rfl, runAt_branched (by rw [hcode, runCode_arithmetic hop, runCode_nil])
      (Graph.successors_ofRows (by decide)) rfl (h.parameters _) (h.parameters _), hs.1, hs.2]
    cases hover : (Machine.compute ∅ (op.arithmetic (.word (argumentAt self.args 0))
        (.word (argumentAt self.args 1)))).2 with
    | false =>
      refine runAt_returned ?_
      rw [if_neg (by simp), hdone, runCode_ret]
      simp
    | true => exact h.asks jumps hs

/-- What the stub of a comparison answers. -/
theorem order_runs {cond : Cond} (jumps : Nat) :
    (machineWorld words call self).run (orderGraph cond name) (jumps + 4) =
      let a := argumentAt self.args 0
      let b := argumentAt self.args 1
      if a.isSmi && b.isSmi then pure (if cond.holds a b then words ⟨5⟩ 0 else words ⟨7⟩ 0)
      else askHost call (words ⟨13⟩ 0) (words ⟨11⟩ 0) (words ⟨13⟩ 2) [a, b] := by
  have h : BothSmis name 9 (orderGraph cond name) := by
    refine ⟨Graph.code_ofRows (by decide), Graph.code_ofRows (by decide), Graph.code_ofRows (by decide),
      Graph.successors_ofRows (by decide), Graph.successors_ofRows (by decide),
      Graph.parameters_ofRows fun row hrow => ?_⟩
    simp [orderRows, hostRows, pushRows] at hrow
    rcases hrow with rfl | rfl | rfl | rfl | rfl | rfl | rfl | rfl | rfl | rfl | rfl | rfl | rfl | rfl | rfl <;> simp
  have hcode : (orderGraph cond name).code ⟨3⟩ =
      [⟨⟨4⟩, .prim .compareSmi, [.value ⟨0⟩, .value ⟨1⟩, .const (.cond cond)], ⟨3⟩⟩] :=
    Graph.code_ofRows (by decide)
  have hyes : (orderGraph cond name).code ⟨4⟩ = [⟨⟨5⟩, .prim .literal, [.const (.bool true)], ⟨4⟩⟩,
      ⟨⟨6⟩, .prim .ret, [.value ⟨5⟩], ⟨4⟩⟩] := Graph.code_ofRows (by decide)
  have hno : (orderGraph cond name).code ⟨5⟩ = [⟨⟨7⟩, .prim .literal, [.const (.bool false)], ⟨5⟩⟩,
      ⟨⟨8⟩, .prim .ret, [.value ⟨7⟩], ⟨5⟩⟩] := Graph.code_ofRows (by decide)
  obtain ⟨s, hs, hruns⟩ := h.runs words call self
  simp only
  rw [hruns (jumps + 1)]
  cases hsmall : (argumentAt self.args 0).isSmi && (argumentAt self.args 1).isSmi with
  | false => rfl
  | true =>
    rw [if_pos rfl, runAt_branched (by rw [hcode, runCode_compareSmi, runCode_nil])
      (Graph.successors_ofRows (by decide)) rfl (h.parameters _) (h.parameters _), hs.1, hs.2]
    cases cond.holds (argumentAt self.args 0) (argumentAt self.args 1) with
    | false => exact runAt_returned (by rw [if_neg (by simp), hno, runCode_literal, runCode_ret]; simp)
    | true => exact runAt_returned (by rw [if_pos rfl, hyes, runCode_literal, runCode_ret]; simp)

/-- What the stub of the negative answers. -/
theorem negate_runs (jumps : Nat) : (machineWorld words call self).run (negateGraph name) (jumps + 3) =
      let a := argumentAt self.args 0
      if a.isSmi && !a.negOverflows then pure a.neg
      else askHost call (words ⟨8⟩ 0) (words ⟨6⟩ 0) (words ⟨8⟩ 2) [a] := by
  have hparameters : ∀ b, (negateGraph name).parameters b = [] := Graph.parameters_ofRows (by decide)
  have hentry : (negateGraph name).code ⟨0⟩ = [⟨⟨0⟩, .prim .stubArg, [raw 0], ⟨0⟩⟩,
    ⟨⟨1⟩, .prim .isSmi, [.value ⟨0⟩], ⟨0⟩⟩] := Graph.code_ofRows (by decide)
  have hfast : (negateGraph name).code ⟨1⟩ = [⟨⟨2⟩, .prim .neg, [.value ⟨0⟩], ⟨1⟩⟩,
    ⟨⟨3⟩, .prim .overflowed, [], ⟨1⟩⟩] := Graph.code_ofRows (by decide)
  have hslow : (negateGraph name).code ⟨2⟩ = number 5 (hostRows "unary/-" [⟨0⟩] 5 2) ++
    [⟨⟨9⟩, .prim .ret, [.value ⟨8⟩], ⟨2⟩⟩] := Graph.code_ofRows (by decide)
  have hdone : (negateGraph name).code ⟨3⟩ = [⟨⟨4⟩, .prim .ret, [.value ⟨2⟩], ⟨3⟩⟩] :=
    Graph.code_ofRows (by decide)
  have hasks : ∀ (jumps : Nat) {s : Progress Word}, s.regs ⟨0⟩ = argumentAt self.args 0 →
      (machineWorld words call self).runAt (negateGraph name) (jumps + 1) ⟨2⟩ s =
        askHost call (words ⟨8⟩ 0) (words ⟨6⟩ 0) (words ⟨8⟩ 2) [argumentAt self.args 0] := by
    intro jumps s hs
    refine runAt_returned ?_
    rw [hslow, runCode_hostRows]
    simp only [List.map_cons, List.map_nil, hs, runCode_ret]
    simp
  simp only
  rw [Meaning.World.run, runAt_branched (by rw [hentry, runCode_stubArg (by decide), runCode_isSmi, runCode_nil])
    (Graph.successors_ofRows (by decide)) rfl (hparameters _) (hparameters _)]
  generalize hs : (((_ : Progress Word).setReg ⟨0⟩ (argumentAt self.args 0)).tested _).next = s
  have hreg : s.regs ⟨0⟩ = argumentAt self.args 0 := hs ▸ rfl
  simp only [Progress.regs_setReg, if_true]
  cases (argumentAt self.args 0).isSmi with
  | false => exact hasks (jumps + 1) hreg
  | true =>
    rw [if_pos rfl, runAt_branched (by rw [hfast, runCode_neg, runCode_nil]) (Graph.successors_ofRows (by decide)) rfl
      (hparameters _) (hparameters _), hreg]
    cases (argumentAt self.args 0).negOverflows with
    | false =>
      refine runAt_returned ?_
      rw [if_neg (by simp), hdone, runCode_ret]
      simp
    | true => exact hasks jumps hreg

/-! ### Small integers -/

/-- What an arithmetic operation means for integers. -/
def exact (op : PrimOp) (a b : Int) : Int :=
  match op with
  | .add => a + b
  | .sub => a - b
  | _ => a * b

section

variable {a b : Int} (ha : Word.smiMin ≤ a ∧ a ≤ Word.smiMax) (hb : Word.smiMin ≤ b ∧ b ≤ Word.smiMax)

include ha hb

/-- Arithmetic on words is exact, or it overflows. -/
theorem compute_exact {op : PrimOp} (hop : op ∈ [PrimOp.add, .sub, .mul]) :
    Machine.compute ∅ (op.arithmetic (.word (.smi a)) (.word (.smi b))) =
      (.smi (exact op a b), !decide (Word.Fits (2 * exact op a b))) := by
  have hleft := Word.signed_smi ha.1 ha.2
  have hright := Word.signed_smi hb.1 hb.2
  have htest : ∀ {o : Bool} {n : Int}, (o = true ↔ ¬ Word.Fits n) → o = !decide (Word.Fits n) := by
    intro o n h
    cases o <;> simp_all
  simp only [List.mem_cons, List.not_mem_nil, or_false] at hop
  rcases hop with rfl | rfl | rfl
  · have hsum : 2 * a + 2 * b = 2 * (a + b) := by omega
    refine Prod.ext ?_ (htest ?_)
    · exact (Word.add_signed (.smi a) (.smi b)).trans (by rw [hleft, hright, hsum]; rfl)
    · exact (Word.addOverflows_iff (.smi a) (.smi b)).trans (by rw [hleft, hright, hsum]; rfl)
  · have hdifference : 2 * a - 2 * b = 2 * (a - b) := by omega
    refine Prod.ext ?_ (htest ?_)
    · exact (Word.sub_signed (.smi a) (.smi b)).trans (by rw [hleft, hright, hdifference]; rfl)
    · exact (Word.subOverflows_iff (.smi a) (.smi b)).trans (by rw [hleft, hright, hdifference]; rfl)
  · have huntag := Word.untag_smi hb.1 hb.2
    have hproduct : 2 * a * b = 2 * (a * b) := Int.mul_assoc 2 a b
    refine Prod.ext ?_ (htest ?_)
    · exact (Word.mul_signed (.smi a) (Word.smi b).untag).trans (by rw [hleft, huntag, hproduct]; rfl)
    · exact (Word.mulOverflows_iff (.smi a) (Word.smi b).untag).trans (by rw [hleft, huntag, hproduct]; rfl)

end

theorem stublike_arithmetic {op : PrimOp} {name : String}
    (h : (op, name) ∈ [(PrimOp.add, Stub.binaryName .add), (.sub, Stub.binaryName .sub), (.mul, Stub.binaryName .mul)]) :
    Stublike (arithmeticGraph op name) := by
  simp only [List.mem_cons, List.not_mem_nil, or_false, Prod.mk.injEq] at h
  rcases h with ⟨rfl, rfl⟩ | ⟨rfl, rfl⟩ | ⟨rfl, rfl⟩
  all_goals exact StubRows.stublike (by decide +kernel)

/-- The stub of an arithmetic operator answers the exact result if that is a small integer. -/
theorem arithmetic_exact {op : PrimOp} {name : String} {p : Program} {e : Engine}
    (hop : (op, name) ∈ [(PrimOp.add, Stub.binaryName .add), (.sub, Stub.binaryName .sub), (.mul, Stub.binaryName .mul)])
    (h : Generated name (do
      let left ← stubArg 0
      let right ← stubArg 1
      Stub.arithmeticBody op name left right) p e) : ∃ host id,
      e.stubs.compiled? hostStub = some host ∧ callbackId name = .ok id ∧
        ∀ {a b : Int}, Word.smiMin ≤ a ∧ a ≤ Word.smiMax → Word.smiMin ≤ b ∧ b ≤ Word.smiMax →
          ∀ {call : Caller} {self : Activation} (jumps : Nat), argumentAt self.args 0 = .smi a →
          argumentAt self.args 1 = .smi b → Machine.runFrom call p self (jumps + 4) ⟨0⟩ ∅ =
            match Word.ofSmi? (exact op a b) with
            | some w => pure w
            | none => askHost call host.function (.smi id) e.heap.undefined [.smi a, .smi b] := by
  have hmem : op ∈ [PrimOp.add, .sub, .mul] := by
    simp only [List.mem_cons, List.not_mem_nil, or_false, Prod.mk.injEq] at hop ⊢
    tauto
  obtain ⟨words, hstanding, hruns⟩ := h.runs (build_arithmetic hmem name) (stublike_arithmetic hop)
  have hreach : Relation.ReflTransGen (arithmeticGraph op name).Edge ⟨0⟩ ⟨1⟩ := by
    refine .single ?_
    rw [Graph.Edge, arithmeticGraph, Graph.successors_ofRows (by decide)]
    simp
  have hslow : (arithmeticGraph op name).code ⟨1⟩ =
      number 7 (hostRows name [⟨0⟩, ⟨1⟩] 7 1) ++ [⟨⟨12⟩, .prim .ret, [.value ⟨11⟩], ⟨1⟩⟩] :=
    Graph.code_ofRows (by decide)
  obtain ⟨host, id, hhost, hid, hfunction, hcallback, hundefined⟩ := hstanding.host hreach hslow
  refine ⟨host, id, hhost, hid, fun {a b} ha hb call self jumps hself hself' => ?_⟩
  rw [hruns, arithmetic_runs hmem, Word.ofSmi?_eq, ← hfunction, ← hcallback, ← hundefined]
  simp only [hself, hself', compute_exact ha hb hmem, Word.smi_isSmi, Bool.and_self, Bool.true_and, Bool.not_not,
    decide_eq_true_eq]
  split
  · rfl
  · rfl

theorem negate_exact {p : Program} {e : Engine} (h : Generated "unary/-" Stub.negateBody p e) : ∃ host id,
    e.stubs.compiled? hostStub = some host ∧ callbackId "unary/-" = .ok id ∧
      ∀ {a : Int}, Word.smiMin ≤ a ∧ a ≤ Word.smiMax → ∀ {call : Caller} {self : Activation} (jumps : Nat),
        argumentAt self.args 0 = .smi a → Machine.runFrom call p self (jumps + 3) ⟨0⟩ ∅ =
          if a = Word.smiMin then askHost call host.function (.smi id) e.heap.undefined [.smi a]
          else pure (.smi (-a)) := by
  obtain ⟨words, hstanding, hruns⟩ := h.runs (build_negate _) (StubRows.stublike (by decide +kernel))
  have hreach : Relation.ReflTransGen (negateGraph "unary/-").Edge ⟨0⟩ ⟨2⟩ := by
    refine .single ?_
    rw [Graph.Edge, negateGraph, Graph.successors_ofRows (by decide)]
    simp
  have hslow : (negateGraph "unary/-").code ⟨2⟩ =
      number 5 (hostRows "unary/-" [⟨0⟩] 5 2) ++ [⟨⟨9⟩, .prim .ret, [.value ⟨8⟩], ⟨2⟩⟩] :=
    Graph.code_ofRows (by decide)
  obtain ⟨host, id, hhost, hid, hfunction, hcallback, hundefined⟩ := hstanding.host hreach hslow
  refine ⟨host, id, hhost, hid, fun {a} ha call self jumps hself => ?_⟩
  have hsigned := Word.signed_smi ha.1 ha.2
  have hneg : (Word.smi a).neg = .smi (-a) := by
    rw [Word.neg_signed, hsigned, Word.smi]
    congr 1
    omega
  have hover : (Word.smi a).negOverflows = decide (a = Word.smiMin) := by
    have hiff := Word.negOverflows_iff (.smi a)
    rw [hsigned] at hiff
    have hleast : ¬ Word.Fits (-(2 * a)) ↔ a = Word.smiMin := by
      unfold Word.Fits Word.smiMin Word.smiMax at *
      omega
    rw [hleast] at hiff
    cases hcase : (Word.smi a).negOverflows <;> simp_all
  rw [hruns, negate_runs, ← hfunction, ← hcallback, ← hundefined]
  simp only [hself, hneg, hover, Word.smi_isSmi, Bool.true_and]
  by_cases hmin : a = Word.smiMin
  · simp [hmin]
  · simp [hmin]

theorem order_exact {cond : Cond} {name : String} {p : Program} {e : Engine} (hcond : cond ∈ [Cond.lt, .le])
    (hg : Stublike (orderGraph cond name))
    (h : Generated name (do
      let left ← stubArg 0
      let right ← stubArg 1
      Stub.orderBody cond name left right) p e) {a b : Int} (ha : Word.smiMin ≤ a ∧ a ≤ Word.smiMax)
    (hb : Word.smiMin ≤ b ∧ b ≤ Word.smiMax) {call : Caller} {self : Activation} (jumps : Nat)
    (hself : argumentAt self.args 0 = .smi a) (hself' : argumentAt self.args 1 = .smi b) :
    Machine.runFrom call p self (jumps + 4) ⟨0⟩ ∅ =
      pure (e.heap.boolean (if cond = .lt then decide (a < b) else decide (a ≤ b))) := by
  obtain ⟨words, hstanding, hruns⟩ := h.runs (build_order cond name) hg
  have hright : (orderGraph cond name).Edge ⟨0⟩ ⟨2⟩ := Graph.edge_ofRows (by decide) (by decide)
  have hfast : (orderGraph cond name).Edge ⟨2⟩ ⟨3⟩ := Graph.edge_ofRows (by decide) (by decide)
  have hyes : (orderGraph cond name).Edge ⟨3⟩ ⟨4⟩ := Graph.edge_ofRows (by decide) (by decide)
  have hno : (orderGraph cond name).Edge ⟨3⟩ ⟨5⟩ := Graph.edge_ofRows (by decide) (by decide)
  have htrue := hstanding.bool (((Relation.ReflTransGen.single hright).tail hfast).tail hyes) (by
    rw [show (orderGraph cond name).code ⟨4⟩ = [⟨⟨5⟩, .prim .literal, [.const (.bool true)], ⟨4⟩⟩,
      ⟨⟨6⟩, .prim .ret, [.value ⟨5⟩], ⟨4⟩⟩] from Graph.code_ofRows (by decide)]
    exact .head _)
  have hfalse := hstanding.bool (((Relation.ReflTransGen.single hright).tail hfast).tail hno) (by
    rw [show (orderGraph cond name).code ⟨5⟩ = [⟨⟨7⟩, .prim .literal, [.const (.bool false)], ⟨5⟩⟩,
      ⟨⟨8⟩, .prim .ret, [.value ⟨7⟩], ⟨5⟩⟩] from Graph.code_ofRows (by decide)]
    exact .head _)
  have hholds : cond.holds (.smi a) (.smi b) = if cond = .lt then decide (a < b) else decide (a ≤ b) := by
    simp only [List.mem_cons, List.not_mem_nil, or_false] at hcond
    rcases hcond with rfl | rfl
    all_goals
      simp only [Cond.holds, Word.signed_smi ha.1 ha.2, Word.signed_smi hb.1 hb.2]
      simp
  rw [hruns, order_runs]
  simp only [hself, hself', Word.smi_isSmi, Bool.and_self, if_true, hholds, htrue, hfalse]
  generalize (if cond = .lt then decide (a < b) else decide (a ≤ b)) = answer
  cases answer <;> rfl

/-- Stubs of operators are exact on small integers, and ask the host only about results that are none. -/
theorem smi_operators_exact (p : Program) (e : Engine) :
    (∀ op z, (op, z) ∈ [(BinaryOp.add, fun a b : Int => a + b), (.sub, fun a b => a - b), (.mul, fun a b => a * b)] →
      Generated (Stub.binaryName op) (Stub.binaryBody op) p e → ∃ host id,
        e.stubs.compiled? hostStub = some host ∧ callbackId (Stub.binaryName op) = .ok id ∧
        ∀ {a b : Int}, Word.smiMin ≤ a ∧ a ≤ Word.smiMax → Word.smiMin ≤ b ∧ b ≤ Word.smiMax →
          ∀ {call : Caller} {self : Activation} (jumps : Nat), argumentAt self.args 0 = .smi a →
          argumentAt self.args 1 = .smi b → Machine.runFrom call p self (jumps + 4) ⟨0⟩ ∅ =
            match Word.ofSmi? (z a b) with
            | some w => pure w
            | none => askHost call host.function (.smi id) e.heap.undefined [.smi a, .smi b]) ∧
    (Generated "unary/-" Stub.negateBody p e → ∃ host id,
      e.stubs.compiled? hostStub = some host ∧ callbackId "unary/-" = .ok id ∧
      ∀ {a : Int}, Word.smiMin ≤ a ∧ a ≤ Word.smiMax → ∀ {call : Caller} {self : Activation} (jumps : Nat),
        argumentAt self.args 0 = .smi a → Machine.runFrom call p self (jumps + 3) ⟨0⟩ ∅ =
          if a = Word.smiMin then askHost call host.function (.smi id) e.heap.undefined [.smi a]
          else pure (.smi (-a))) ∧
    (∀ op r, (op, r) ∈ [(BinaryOp.lt, fun a b : Int => decide (a < b)), (.le, fun a b => decide (a ≤ b))] →
      Generated (Stub.binaryName op) (Stub.binaryBody op) p e → ∀ {a b : Int},
        Word.smiMin ≤ a ∧ a ≤ Word.smiMax → Word.smiMin ≤ b ∧ b ≤ Word.smiMax →
        ∀ {call : Caller} {self : Activation} (jumps : Nat), argumentAt self.args 0 = .smi a →
          argumentAt self.args 1 = .smi b → ∀ t : Engine, e.heap.Kept t.heap →
            Machine.runFrom call p self (jumps + 4) ⟨0⟩ ∅ t = .ok (t.heap.boolean (r a b)) t) ∧
    ∀ (t : Engine) (host receiver : Word) (name : String) (id depth : Nat) (args : List Word),
      LeadsToHost t host → callbackId name = .ok id → args.length < 2 ^ 32 →
        askHost (Machine.enter (depth + 1)) host (.smi id) receiver args t = callHost (.smi id :: args) t ∧
        dispatch (.smi id :: args) = (do
          emitEvent (.callback name args.length)
          callback name args) := by
  refine ⟨fun op z hop h => ?_, negate_exact, fun op r hop h a b ha hb call self jumps hself hself' t ht => ?_,
    fun t host receiver name id depth args ht hid hargs => ⟨askHost_eq ht hargs depth, dispatch_callback hid args⟩⟩
  · simp only [List.mem_cons, List.not_mem_nil, or_false, Prod.mk.injEq] at hop
    rcases hop with ⟨rfl, rfl⟩ | ⟨rfl, rfl⟩ | ⟨rfl, rfl⟩
    · exact arithmetic_exact (by simp) h
    · exact arithmetic_exact (by simp) h
    · exact arithmetic_exact (by simp) h
  · have hboolean : ∀ v, e.heap.boolean v = t.heap.boolean v := fun v => by
      unfold Heap.boolean
      rw [ht.trueValue, ht.falseValue]
    simp only [List.mem_cons, List.not_mem_nil, or_false, Prod.mk.injEq] at hop
    rw [← hboolean]
    rcases hop with ⟨rfl, rfl⟩ | ⟨rfl, rfl⟩
    · exact congrFun (order_exact (by simp) (StubRows.stublike (by decide +kernel)) h ha hb jumps hself hself') t
    · exact congrFun (order_exact (by simp) (StubRows.stublike (by decide +kernel)) h ha hb jumps hself hself') t

/-- An engine that has compiled nothing but the stub that leads to the host. -/
def hosting : Engine :=
  { stubs := { compiled := (∅ : Std.TreeMap String Stub).insert hostStub ⟨.pointer 64, .pointer 96⟩ } }

/-- Whatever its function is, the code at zero in an empty memory is the host. -/
theorem leadsToHost_empty (host : Word) : LeadsToHost {} host := by
  have hload : ∀ a, (({} : Engine).heap.memory.load a) = ⟨0⟩ := fun a => by
    have hword : ∀ i, (({} : Engine).heap.memory.wordAt i) = ⟨0⟩ := fun i => by
      have hframe : ({} : Engine).heap.memory.frames[i / Memory.frameWords]? = none :=
        Std.TreeMap.getElem?_emptyc
      rw [Memory.wordAt, hframe]
    simp [Memory.load, hword]
  unfold LeadsToHost
  rw [hload]
  rfl

/-- An activation with two small integers as its arguments. -/
def activation (a b : Int) : Activation := ⟨default, default, #[.smi a, .smi b], .ofInt 2⟩

theorem smi_operators_exact_extremes : ∃ (plus negate less : Program) (e₁ e₂ e₃ : Engine) (host : Word) (id : Nat),
    Generated "binary/+" (Stub.binaryBody .add) plus e₁ ∧ Generated "unary/-" Stub.negateBody negate e₂ ∧
    Generated "binary/<" (Stub.binaryBody .lt) less e₃ ∧ ∀ call,
      Machine.runFrom call plus (activation (2 ^ 61) (2 ^ 61 - 1)) 4 ⟨0⟩ ∅ = pure (.smi (2 ^ 62 - 1)) ∧
      Machine.runFrom call plus (activation (2 ^ 61) (2 ^ 61)) 4 ⟨0⟩ ∅ =
        askHost call host (.smi id) e₁.heap.undefined [.smi (2 ^ 61), .smi (2 ^ 61)] ∧
      Machine.runFrom call negate (activation 5 0) 3 ⟨0⟩ ∅ = pure (.smi (-5)) ∧
      Machine.runFrom call less (activation (-(2 ^ 62)) (2 ^ 62 - 1)) 4 ⟨0⟩ ∅ e₃ = .ok e₃.heap.trueValue e₃ ∧
      askHost (Machine.enter 1) host (.smi id) e₁.heap.undefined [.smi (2 ^ 61), .smi (2 ^ 61)] {} =
        callHost [.smi id, .smi (2 ^ 61), .smi (2 ^ 61)] {} := by
  obtain ⟨plus, e₁, hplus⟩ : ∃ p e, Generated "binary/+" (Stub.binaryBody .add) p e :=
    @generated_of_succeeds _ _ hosting (by decide +kernel)
  obtain ⟨negate, e₂, hnegate⟩ : ∃ p e, Generated "unary/-" Stub.negateBody p e :=
    @generated_of_succeeds _ _ hosting (by decide +kernel)
  obtain ⟨less, e₃, hless⟩ : ∃ p e, Generated "binary/<" (Stub.binaryBody .lt) p e :=
    @generated_of_succeeds _ _ hosting (by decide +kernel)
  obtain ⟨host, id, -, hid, hadds⟩ := (smi_operators_exact plus e₁).1 .add _ (.head _) hplus
  obtain ⟨_, _, -, -, hnegates⟩ := (smi_operators_exact negate e₂).2.1 hnegate
  refine ⟨plus, negate, less, e₁, e₂, e₃, host.function, id, hplus, hnegate, hless, fun call =>
    ⟨?_, ?_, ?_, ?_, ?_⟩⟩
  · exact @hadds (2 ^ 61) (2 ^ 61 - 1) (by decide) (by decide) call (activation _ _) 0 rfl rfl
  · exact @hadds (2 ^ 61) (2 ^ 61) (by decide) (by decide) call (activation _ _) 0 rfl rfl
  · exact @hnegates 5 (by decide) call (activation 5 0) 0 rfl
  · exact @(smi_operators_exact less e₃).2.2.1 .lt _ (.head _) hless (-(2 ^ 62)) (2 ^ 62 - 1) (by decide)
      (by decide) call (activation _ _) 0 rfl rfl e₃ (.refl _)
  · exact ((smi_operators_exact plus e₁).2.2.2 {} host.function _ "binary/+" id 0 _ (leadsToHost_empty _) hid
      (by decide)).1

end Engine
end ScriptEngine
