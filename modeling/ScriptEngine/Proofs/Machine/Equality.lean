import ScriptEngine.Proofs.Machine.Coercions

/-!
Stubs for strict equality. Two different words of which one is a small integer are unequal to them, where the
host compares the numbers that the words stand for. The answers differ if a box holds the number of a small
integer, or if two small integers round to one double.
-/

namespace ScriptEngine

open State Builder

/-! ### Code of the stubs -/

def equalityRows (name : String) (whenEqual : Bool) : List Row :=
  [(.stubArg, [raw 0], 0), (.stubArg, [raw 1], 0),
    (.comparePointer, [.value ⟨0⟩, .value ⟨1⟩, .const (.cond .eq)], 0),
    (.isSmi, [.value ⟨0⟩], 4),
    (.read, [.value ⟨0⟩, raw Layout.shape], 6), (.literal, [.const (.shape .number)], 6),
    (.comparePointer, [.value ⟨4⟩, .value ⟨5⟩, .const (.cond .eq)], 6),
    (.isSmi, [.value ⟨0⟩], 5), (.isSmi, [.value ⟨1⟩], 7),
    (.literal, [.const (.bool whenEqual)], 1), (.ret, [.value ⟨9⟩], 1),
    (.literal, [.const (.bool !whenEqual)], 2), (.ret, [.value ⟨11⟩], 2)] ++
  (hostRows name [⟨0⟩, ⟨1⟩] 13 3).concat (.ret, [.value ⟨17⟩], 3)

def equalityNext : List (List BlockId) :=
  [[⟨4⟩, ⟨5⟩], [], [], [], [⟨1⟩, ⟨6⟩], [⟨2⟩, ⟨7⟩], [⟨3⟩, ⟨1⟩], [⟨2⟩, ⟨3⟩]]

def equalityGraph (name : String) (whenEqual : Bool) : Graph := .ofRows name (equalityRows name whenEqual) equalityNext

theorem build_equality (name : String) (whenEqual : Bool) :
    build name (do
      let left ← stubArg 0
      let right ← stubArg 1
      Stub.equalityBody name whenEqual left right) = .ok (equalityGraph name whenEqual) := by cbv

/-- Operators of strict equality, and what they answer for equal operands. -/
def equalities : List (BinaryOp × Bool) := [(.strictEq, true), (.strictNe, false)]

theorem stublike_equality {op : BinaryOp} {whenEqual : Bool}
    (h : (op, whenEqual) ∈ equalities) :
    Engine.Stublike (equalityGraph (Stub.binaryName op) whenEqual) := by
  simp only [equalities, List.mem_cons, List.not_mem_nil, or_false, Prod.mk.injEq] at h
  rcases h with ⟨rfl, rfl⟩ | ⟨rfl, rfl⟩
  all_goals exact Engine.StubRows.stublike (by decide +kernel)

namespace Engine

open Machine (argumentAt callFunction enter maxJumps)
open Meaning (Progress)

/-! ### Runs -/

section

variable {words : InstrId → Nat → Word} {call : Caller} {self : Activation} {name : String} {whenEqual : Bool} {l r : Word}

theorem code_equality (k : Nat) (hk : k < 8) : (equalityGraph name whenEqual).code ⟨k⟩ =
    (number 0 (equalityRows name whenEqual)).filter (·.block = ⟨k⟩) := Graph.code_ofRows hk

theorem next_equality (k : Nat) (hk : k < 8) : (equalityGraph name whenEqual).successors ⟨k⟩ = equalityNext[k] :=
  Graph.successors_ofRows hk

theorem parameters_equality (b : BlockId) : (equalityGraph name whenEqual).parameters b = [] :=
  Graph.parameters_ofRows (by simp [equalityRows, hostRows, pushRows]) b

/-- The operands stand in the first two registers. -/
def Compares (l r : Word) (s : Progress Word) : Prop := s.regs ⟨0⟩ = l ∧ s.regs ⟨1⟩ = r

variable {s : Progress Word} (hs : Compares l r s)

theorem equality_equal (jumps : Nat) (s : Progress Word) :
    (machineWorld words call self).runAt (equalityGraph name whenEqual) (jumps + 1) ⟨1⟩ s = pure (words ⟨9⟩ 0) :=
  runAt_returned (by rw [code_equality 1 (by decide)]; rfl)

theorem equality_unequal (jumps : Nat) (s : Progress Word) :
    (machineWorld words call self).runAt (equalityGraph name whenEqual) (jumps + 1) ⟨2⟩ s = pure (words ⟨11⟩ 0) :=
  runAt_returned (by rw [code_equality 2 (by decide)]; rfl)

include hs

theorem equality_asks (jumps : Nat) :
    (machineWorld words call self).runAt (equalityGraph name whenEqual) (jumps + 1) ⟨3⟩ s =
      askHost call (words ⟨17⟩ 0) (words ⟨15⟩ 0) (words ⟨17⟩ 2) [l, r] := by
  refine runAt_returned ?_
  rw [code_equality 3 (by decide), show (number 0 (equalityRows name whenEqual)).filter (·.block = ⟨3⟩) =
    number 13 (hostRows name [⟨0⟩, ⟨1⟩] 13 3) ++ [⟨⟨18⟩, .prim .ret, [.value ⟨17⟩], ⟨3⟩⟩] from rfl, runCode_hostRows]
  simp only [List.map_cons, List.map_nil, hs.1, hs.2]
  rfl

/-- Different words are unequal as soon as one of them is a small integer. -/
theorem equality_different (jumps : Nat) :
    (machineWorld words call self).runAt (equalityGraph name whenEqual) (jumps + 3) ⟨5⟩ s =
      if l.isSmi || r.isSmi then pure (words ⟨11⟩ 0)
      else askHost call (words ⟨17⟩ 0) (words ⟨15⟩ 0) (words ⟨17⟩ 2) [l, r] := by
  have hleft : ∀ s : Progress Word, (machineWorld words call self).runCode ((equalityGraph name whenEqual).code ⟨5⟩) s =
      pure (.fell (s.tested (s.regs ⟨0⟩).isSmi)) := fun s => by
    rw [code_equality 5 (by decide)]
    rfl
  have hright : ∀ s : Progress Word, (machineWorld words call self).runCode ((equalityGraph name whenEqual).code ⟨7⟩) s =
      pure (.fell (s.tested (s.regs ⟨1⟩).isSmi)) := fun s => by
    rw [code_equality 7 (by decide)]
    rfl
  rw [runAt_branched (hleft s) (next_equality 5 (by decide)) rfl (parameters_equality _) (parameters_equality _), hs.1]
  cases l.isSmi with
  | true =>
    rw [if_pos rfl, Bool.true_or, if_pos rfl]
    exact equality_unequal (jumps + 1) _
  | false =>
    rw [if_neg Bool.false_ne_true, runAt_branched (hright _) (next_equality 7 (by decide)) rfl (parameters_equality _)
      (parameters_equality _), Progress.regs_next, Progress.regs_tested, hs.2, Bool.false_or]
    cases r.isSmi with
    | true =>
      rw [if_pos rfl, if_pos rfl]
      exact equality_unequal jumps _
    | false =>
      rw [if_neg Bool.false_ne_true, if_neg Bool.false_ne_true]
      exact equality_asks (show Compares l r ((s.tested false).next.tested false).next from hs) jumps

end

/-! ### Agreement with the host -/

variable {e t : Engine} {T : Contents} {s : Stub} {l r : Word}

/-- Equality of the stubs: that of the host, but for words that differ while one of them is a small integer. -/
def wordsEqual (h : Heap) (l r : Word) : Bool := h.strictEquals l r && (l == r || !(l.isSmi || r.isSmi))

/-- Rounding leads to a number. -/
theorem isNaN_round (negative : Bool) (num den : Nat) : (Double.round negative num den).isNaN = false := by
  have hsign : ∀ rest ≤ 2047 * 2 ^ 52, (Double.withSign negative rest).isNaN = false := by
    intro rest hrest
    have hword : (Double.withSign negative rest).word = if negative then 2 ^ 63 + rest else rest := by
      unfold Double.word Double.withSign
      refine UInt64.toNat_ofNat_of_lt' ?_
      rw [UInt64.size]
      split <;> omega
    unfold Double.isNaN Double.exponent Double.fraction
    rw [hword, Bool.and_eq_false_iff, beq_eq_false_iff_ne, bne_eq_false_iff_eq]
    rcases Nat.lt_or_ge rest (2047 * 2 ^ 52) with hlt | hge
    · exact .inl (by split <;> omega)
    · exact .inr (by split <;> omega)
  unfold Double.round Double.infinity
  extract_lets quotient scale significand rest
  split
  · exact hsign (2047 * 2 ^ 52) (Nat.le_refl _)
  · rename_i hlt
    exact hsign _ (Nat.le_of_not_le hlt)

theorem equals_self {d : Double} (h : d.isNaN = false) : d.equals d = true := by
  unfold Double.equals Double.compare?
  rw [h, Std.compare_self]
  rfl

/-- A word equals itself, unless it is a box, which may hold no number. -/
theorem strictEquals_self {h : Heap} (hbox : h.hasRootShape l .number = false) : h.strictEquals l l = true := by
  unfold Heap.strictEquals
  cases hdouble : h.double? l with
  | some d =>
    have hnumber : d.isNaN = false := by
      unfold Heap.double? at hdouble
      split at hdouble
      · cases hdouble
        exact isNaN_round _ _ _
      · rw [hbox] at hdouble
        cases hdouble
    exact equals_self hnumber
  | none =>
    cases h.text? l with
    | some text => exact beq_self_eq_true text
    | none => exact beq_self_eq_true l

theorem callback_equality {op : BinaryOp} {whenEqual : Bool} (h : (op, whenEqual) ∈ equalities) (events : Array Event) :
    callback (Stub.binaryName op) [l, r] { e with events } =
      .ok (e.heap.boolean (whenEqual == e.heap.strictEquals l r)) { e with heap := e.heap, events } := by
  simp only [equalities, List.mem_cons, List.not_mem_nil, or_false, Prod.mk.injEq] at h
  rcases h with ⟨rfl, rfl⟩ | ⟨rfl, rfl⟩
  · rw [Bool.true_beq]
    rfl
  · rw [Bool.false_beq]
    rfl

/-- Equal operands are compared again if they are a box. -/
theorem Stocked.same_runs (stocked : Stocked T e) {words : InstrId → Nat → Word} {name : String} {whenEqual : Bool}
    (call : Caller) (self : Activation) {state : Progress Word} (hstate : Compares l r state)
    (hl : l.isSmi = true ∨ ∃ c, T l = some c) (hroot : words ⟨5⟩ 0 = e.heap.rootShape .number) (jumps : Nat) :
    (machineWorld words call self).runAt (equalityGraph name whenEqual) (jumps + 3) ⟨4⟩ state e =
      (if e.heap.hasRootShape l .number then askHost call (words ⟨17⟩ 0) (words ⟨15⟩ 0) (words ⟨17⟩ 2) [l, r]
        else pure (words ⟨9⟩ 0) : RunM Word) e := by
  have htag : ∀ s : Progress Word, (machineWorld words call self).runCode ((equalityGraph name whenEqual).code ⟨4⟩) s =
      pure (.fell (s.tested (s.regs ⟨0⟩).isSmi)) := fun s => by
    rw [code_equality 4 (by decide)]
    rfl
  rw [runAt_branched (htag state) (next_equality 4 (by decide)) rfl (parameters_equality _) (parameters_equality _),
    hstate.1]
  cases hsmi : l.isSmi with
  | true =>
    have hnone : e.heap.hasRootShape l .number = false := by simp [Heap.hasRootShape, Heap.shapeOf?, hsmi]
    rw [if_pos rfl, hnone, if_neg Bool.false_ne_true, equality_equal]
  | false =>
    obtain ⟨c, hc⟩ := hl.resolve_left (by rw [hsmi]; exact Bool.false_ne_true)
    obtain ⟨past, sound⟩ := stocked.sound
    obtain ⟨shape, -, -, hshape, -⟩ := shape_of_cell sound.typed hc
    have hread : e.heap.read l Layout.shape = shape := stocked.laid.read (i := 0) hc hshape
    have hbox : e.heap.hasRootShape l .number = (shape == e.heap.rootShape .number) := by
      unfold Heap.hasRootShape
      rw [Heap.shapeOf?_of_cell stocked.laid hc hshape]
      rfl
    have hbelow := stocked.laid.below hc
    have hsmi' : (((state.tested false).next).regs ⟨0⟩).isSmi = false := (congrArg Word.isSmi hstate.1).trans hsmi
    have hblock : (machineWorld words call self).runCode ((equalityGraph name whenEqual).code ⟨6⟩)
        (state.tested false).next e = .ok (.fell (((((state.tested false).next).setReg ⟨4⟩ shape).setReg ⟨5⟩
          (words ⟨5⟩ 0)).tested (e.heap.hasRootShape l .number))) e := by
      rw [code_equality 6 (by decide), show (number 0 (equalityRows name whenEqual)).filter (·.block = ⟨6⟩) =
        [⟨⟨4⟩, .prim .read, [.value ⟨0⟩, raw Layout.shape], ⟨6⟩⟩, ⟨⟨5⟩, .prim .literal, [.const (.shape .number)], ⟨6⟩⟩,
          ⟨⟨6⟩, .prim .comparePointer, [.value ⟨4⟩, .value ⟨5⟩, .const (.cond .eq)], ⟨6⟩⟩] from rfl,
        runCode_read (by decide) hsmi'
          (by rw [Progress.regs_next, Progress.regs_tested, hstate.1]; unfold Layout.shape; omega),
        Progress.regs_next, Progress.regs_tested, hstate.1, hread, hbox, ← hroot, ← Word.holds_eq]
      rfl
    rw [if_neg Bool.false_ne_true]
    refine (runAt_turns hblock (next_equality 6 (by decide)) rfl (parameters_equality _) (parameters_equality _)).trans ?_
    cases e.heap.hasRootShape l .number with
    | true =>
      rw [if_pos rfl, if_pos rfl]
      generalize hnext : Progress.next _ = next
      have hregs : Compares l r next := hnext ▸ hstate
      exact congrFun (equality_asks hregs jumps) e
    | false =>
      rw [if_neg Bool.false_ne_true, if_neg Bool.false_ne_true]
      exact congrFun (equality_equal jumps _) e

theorem source_equality {op : BinaryOp} {whenEqual : Bool} (h : (op, whenEqual) ∈ equalities) :
    (Stub.binaryName op, .body (Stub.binaryBody op)) ∈ StubLibrary.standardSources ∧
      build (Stub.binaryName op) (Stub.binaryBody op) = .ok (equalityGraph (Stub.binaryName op) whenEqual) := by
  refine ⟨?_, ?_⟩
  · refine List.mem_append_left _ (List.mem_append_right _ (List.mem_map_of_mem (a := op) ?_))
    cases op <;> decide
  · simp only [equalities, List.mem_cons, List.not_mem_nil, or_false, Prod.mk.injEq] at h
    rcases h with ⟨rfl, rfl⟩ | ⟨rfl, rfl⟩
    · exact build_equality _ _
    · exact build_equality _ _

theorem Stocked.equality_agrees (stocked : Stocked T e) (calm : e.Calm) {op : BinaryOp} {whenEqual : Bool}
    (hop : (op, whenEqual) ∈ equalities) (hs : e.stubs.compiled? (Stub.binaryName op) = some s) (depth : Nat)
    (self : Activation) (hl : argumentAt self.args 0 = l) (hr : argumentAt self.args 1 = r)
    (hvalue : l.isSmi = true ∨ ∃ c, T l = some c) : ∃ t,
      callFunction (enter (depth + 2)) s.function self e =
        .ok (e.heap.boolean (whenEqual == wordsEqual e.heap l r)) t ∧ Noted e t e.heap := by
  obtain ⟨hsource, hbuild⟩ := source_equality hop
  obtain ⟨words, hstanding, hruns⟩ := stocked.stub_runs calm hs hsource hbuild (stublike_equality hop)
  obtain ⟨jumps, hjumps⟩ : ∃ jumps, maxJumps = jumps + 4 := exists_maxJumps (by decide)
  have hentered := noted_entered e
  have hheap : e.entered.heap = e.heap := hentered.heap_eq
  -- The blocks that hold constants can be reached, so their words are those of the constants.
  have hedge : ∀ {k t}, (∃ hk : k < 8, t ∈ equalityNext[k]) →
      (equalityGraph (Stub.binaryName op) whenEqual).Edge ⟨k⟩ t := fun ⟨hk, ht⟩ => Graph.edge_ofRows hk ht
  have hto₄ : Relation.ReflTransGen (equalityGraph (Stub.binaryName op) whenEqual).Edge ⟨0⟩ ⟨4⟩ :=
    .single (hedge ⟨by decide, by decide⟩)
  have hto₅ : Relation.ReflTransGen (equalityGraph (Stub.binaryName op) whenEqual).Edge ⟨0⟩ ⟨5⟩ :=
    .single (hedge ⟨by decide, by decide⟩)
  have hto₆ := hto₄.tail (hedge (k := 4) (t := ⟨6⟩) ⟨by decide, by decide⟩)
  obtain ⟨_, hequal⟩ := hstanding.row (k := 9) rfl (by decide) (hto₄.tail (hedge ⟨by decide, by decide⟩)) (i := 0) rfl rfl
  obtain ⟨_, hunequal⟩ := hstanding.row (k := 11) rfl (by decide) (hto₅.tail (hedge ⟨by decide, by decide⟩)) (i := 0) rfl rfl
  obtain ⟨_, hroot⟩ := hstanding.row (k := 5) rfl (by decide) hto₆ (i := 0) rfl rfl
  have hslow : (equalityGraph (Stub.binaryName op) whenEqual).code ⟨3⟩ =
      number 13 (hostRows (Stub.binaryName op) [⟨0⟩, ⟨1⟩] 13 3) ++ [⟨⟨18⟩, .prim .ret, [.value ⟨17⟩], ⟨3⟩⟩] :=
    Graph.code_ofRows (by decide)
  obtain ⟨host, id, hhost, hid, hfunction, hcallback, -⟩ :=
    hstanding.host (hto₆.tail (hedge (k := 6) ⟨by decide, by decide⟩)) hslow
  have hasks : ∃ t, askHost (enter (depth + 1)) (words ⟨17⟩ 0) (words ⟨15⟩ 0) (words ⟨17⟩ 2) [l, r] e.entered =
      .ok (e.heap.boolean (whenEqual == e.heap.strictEquals l r)) t ∧ Noted e t e.heap := by
    have hstocked := hentered.stocked stocked
    obtain ⟨t, hanswer, hnoted⟩ := callHost_heap (e := e.entered) hid (callback_equality hop)
    rw [hheap] at hanswer hnoted
    refine ⟨t, ?_, hentered.trans hnoted⟩
    rw [show words ⟨17⟩ 0 = host.function from hfunction, show words ⟨15⟩ 0 = .smi id from hcallback]
    exact (askHost_eq (hstocked.leadsToHost (by rw [hentered.stubs_eq]; exact hhost)) (by simp) depth).trans hanswer
  have hentry : ∀ s : Progress Word, (machineWorld words (enter (depth + 1)) self).runCode
      ((equalityGraph (Stub.binaryName op) whenEqual).code ⟨0⟩) s =
        pure (.fell (((s.setReg ⟨0⟩ l).setReg ⟨1⟩ r).tested (l == r))) := fun s => by
    rw [code_equality 0 (by decide), ← hl, ← hr, ← Word.holds_eq]
    rfl
  rw [hruns, hjumps, Meaning.World.run,
    runAt_branched (hentry _) (next_equality 0 (by decide)) rfl (parameters_equality _) (parameters_equality _)]
  generalize hstate : ((((_ : Progress Word).setReg ⟨0⟩ l).setReg ⟨1⟩ r).tested (l == r)).next = state
  have hregs : Compares l r state := hstate ▸ ⟨rfl, rfl⟩
  unfold wordsEqual
  cases hsame : l == r with
  | true =>
    rw [beq_iff_eq] at hsame
    subst hsame
    rw [if_pos rfl, Bool.true_or, Bool.and_true,
      (hentered.stocked stocked).same_runs _ self hregs hvalue (by rw [hheap]; exact hroot), hheap]
    cases hbox : e.heap.hasRootShape l .number with
    | true =>
      rw [if_pos rfl]
      exact hasks
    | false =>
      rw [if_neg Bool.false_ne_true, strictEquals_self hbox, beq_true,
        show words ⟨9⟩ 0 = e.heap.boolean whenEqual from hequal]
      exact ⟨_, rfl, hentered⟩
  | false =>
    rw [if_neg Bool.false_ne_true, equality_different hregs, Bool.false_or]
    cases l.isSmi || r.isSmi with
    | true =>
      rw [if_pos rfl, Bool.not_true, Bool.and_false, beq_false, show words ⟨11⟩ 0 = e.heap.boolean !whenEqual from hunequal]
      exact ⟨_, rfl, hentered⟩
    | false =>
      rw [if_neg Bool.false_ne_true, Bool.not_false, Bool.and_true]
      exact hasks

/-- Words of one number, of which one is a small integer. -/
def Confused (h : Heap) (l r : Word) : Prop :=
  l ≠ r ∧ (l.isSmi = true ∨ r.isSmi = true) ∧ ∃ a b, h.double? l = some a ∧ h.double? r = some b ∧ a.equals b = true

theorem number_of_isSmi (h : Heap) (hsmi : l.isSmi = true) : (∃ a, h.double? l = some a) ∧ h.text? l = none := by
  obtain ⟨n, hlow, hhigh, rfl⟩ := Word.eq_smi hsmi
  refine ⟨⟨.ofInt n, ?_⟩, ?_⟩
  · unfold Heap.double?
    rw [Word.toSmi?_smi hlow hhigh]
  · simp [Heap.text?, Heap.hasRootShape, Heap.shapeOf?, hsmi]

/-- The stubs confuse nothing else. -/
theorem wordsEqual_eq (h : Heap) : wordsEqual h l r = h.strictEquals l r ↔ ¬ Confused h l r := by
  unfold wordsEqual Confused
  by_cases hsame : l = r
  · simp [hsame]
  rw [show (l == r) = false from beq_eq_false_iff_ne.mpr hsame, Bool.false_or]
  by_cases hsmi : l.isSmi = true ∨ r.isSmi = true
  · rw [show (l.isSmi || r.isSmi) = true from (Bool.or_eq_true _ _).mpr hsmi, Bool.not_true, Bool.and_false]
    have hequals : h.strictEquals l r = true ↔ ∃ a b, h.double? l = some a ∧ h.double? r = some b ∧ a.equals b = true := by
      have htext : h.text? l = none ∨ h.text? r = none :=
        hsmi.imp (fun hl => (number_of_isSmi h hl).2) fun hr => (number_of_isSmi h hr).2
      unfold Heap.strictEquals
      cases h.double? l with
      | some a =>
        cases h.double? r with
        | some b => simp
        | none => rcases htext with ht | ht <;> simp [ht, hsame]
      | none => rcases htext with ht | ht <;> simp [ht, hsame]
    rw [eq_comm, ← Bool.not_eq_true, hequals]
    exact ⟨fun hne hconfused => hne hconfused.2.2, fun hne hequal => hne ⟨hsame, hsmi, hequal⟩⟩
  · obtain ⟨hl, hr⟩ := not_or.mp hsmi
    simp [Bool.eq_false_of_not_eq_true hl, Bool.eq_false_of_not_eq_true hr]

/-- In an engine whose compiled stubs lead to what their sources say, strict equality of values is that of the
host, unless the operands are confused: then it says that they differ. -/
theorem strict_equality_answers (stocked : Stocked T e) (calm : e.Calm) {op : BinaryOp} {whenEqual : Bool}
    (hop : (op, whenEqual) ∈ equalities) (hs : e.stubs.compiled? (Stub.binaryName op) = some s) (depth : Nat)
    (self : Activation) (hvalue : (argumentAt self.args 0).isSmi = true ∨ ∃ c, T (argumentAt self.args 0) = some c) :
    ∃ equal t, callFunction (enter (depth + 2)) s.function self e = .ok (e.heap.boolean (whenEqual == equal)) t ∧
      Noted e t e.heap ∧
      (equal = e.heap.strictEquals (argumentAt self.args 0) (argumentAt self.args 1) ↔
        ¬ Confused e.heap (argumentAt self.args 0) (argumentAt self.args 1)) := by
  obtain ⟨t, hcall, hnoted⟩ := stocked.equality_agrees calm hop hs depth self rfl rfl hvalue
  exact ⟨_, t, hcall, hnoted, wordsEqual_eq e.heap⟩

/-- A new engine with strict equality compares small integers. -/
theorem strict_equality_answers_supplied : ∃ (T : Contents) (e t : Engine) (s : Stub) (equal : Bool),
    supplied {} ["binary/==="] = some e ∧ Stocked T e ∧ e.stubs.compiled? (Stub.binaryName .strictEq) = some s ∧
      callFunction (enter 2) s.function ⟨s.function, e.heap.undefined, #[.smi 1, .smi 2], .smi 2⟩ e =
        .ok (e.heap.boolean (true == equal)) t ∧
      (equal = e.heap.strictEquals (.smi 1) (.smi 2) ↔ ¬ Confused e.heap (.smi 1) (.smi 2)) := by
  obtain ⟨e, he, hall⟩ := (Option.any_eq_true _ _).mp (show (supplied {} ["binary/==="]).any
    (fun e => isModest e && !e.config.trapOnEntry) = true by decide +kernel)
  rw [Bool.and_eq_true, Bool.not_eq_true'] at hall
  obtain ⟨T, stocked, hcompiled⟩ := stocked_supplied (by decide) he hall.1
  obtain ⟨s, hs⟩ := hcompiled "binary/===" (by decide)
  have calm : e.Calm := calm_of_not_trapping hall.2
  obtain ⟨equal, t, hcall, -, hequal⟩ := strict_equality_answers stocked calm
    (show (BinaryOp.strictEq, true) ∈ equalities by decide) hs 0 ⟨s.function, e.heap.undefined, #[.smi 1, .smi 2], .smi 2⟩
    (.inl (show (Word.smi 1).isSmi = true by decide))
  exact ⟨T, e, t, s, equal, he, stocked, hs, hcall, hequal⟩

/-- A box with the number 2⁵³ is not the small integer to the stub, but it is to the host. -/
theorem strict_equality_confused : ∃ (T : Contents) (e t : Engine) (s : Stub) (box : Word) (start : Engine),
    supplied {} ["binary/==="] = some start ∧ Heap.number (.ofInt (2 ^ 53)) start.heap = .ok box e.heap ∧ Stocked T e ∧
      e.stubs.compiled? (Stub.binaryName .strictEq) = some s ∧
      callFunction (enter 2) s.function ⟨s.function, e.heap.undefined, #[.smi (2 ^ 53), box], .smi 2⟩ e =
        .ok e.heap.falseValue t ∧
      e.heap.strictEquals (.smi (2 ^ 53)) box = true := by
  let start := supplied {} ["binary/==="]
  obtain ⟨e, he, hall⟩ := (Option.any_eq_true _ _).mp (show start.any (fun e => isModest e &&
    (!e.config.trapOnEntry && ((Heap.number (.ofInt (2 ^ 53))).run' e.heap).any fun box =>
      let h := finalState (Heap.number (.ofInt (2 ^ 53))) e.heap
      isModest { e with heap := h } &&
        (h.strictEquals (.smi (2 ^ 53)) box && !wordsEqual h (.smi (2 ^ 53)) box))) = true by decide +kernel)
  rw [Bool.and_eq_true, Bool.and_eq_true, Bool.not_eq_true'] at hall
  obtain ⟨hmodest, htraps, hnumber⟩ := hall
  obtain ⟨box, hrun', hnumber⟩ := (Option.any_eq_true _ _).mp hnumber
  unfold EStateM.run' EStateM.run at hrun'
  cases hbox : Heap.number (.ofInt (2 ^ 53)) e.heap with
  | error err h =>
    rw [hbox] at hrun'
    cases hrun'
  | ok box' h =>
    rw [hbox] at hrun'
    cases hrun'
    simp only [finalState_ok hbox, Bool.and_eq_true, Bool.not_eq_true'] at hnumber
    obtain ⟨hmodest', hequal, hdiffer⟩ := hnumber
    obtain ⟨T, stocked, hcompiled⟩ := stocked_supplied (by decide) he hmodest
    obtain ⟨s, hs⟩ := hcompiled "binary/===" (by decide)
    have hrun : (onHeap CompileError.heap (Heap.number (.ofInt (2 ^ 53))) : CompileM Word) e =
        .ok box { e with heap := h } :=
      onHeap_eq_ok.mpr ⟨h, hbox, rfl⟩
    obtain ⟨hon, hstock⟩ := stocks_number (P := fun _ _ => True) (.ofInt (2 ^ 53)) _ _ _ hrun
    obtain ⟨T', stocked', -⟩ := hstock (modest_of_isModest hmodest') T stocked trivial
    have calm : Calm { e with heap := h } := calm_of_not_trapping htraps
    obtain ⟨t, hcall, -⟩ := stocked'.equality_agrees calm (show (BinaryOp.strictEq, true) ∈ equalities by decide) hs 0
      ⟨s.function, h.undefined, #[.smi (2 ^ 53), box], .smi 2⟩ (l := .smi (2 ^ 53)) (r := box) rfl rfl
      (.inl (by decide))
    rw [show wordsEqual h (.smi (2 ^ 53)) box = false from hdiffer] at hcall
    exact ⟨T', { e with heap := h }, t, s, box, e, he, hbox, stocked', hs, hcall, hequal⟩

end Engine
end ScriptEngine
