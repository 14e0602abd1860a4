import Mathlib
import ScriptEngine.Proofs.Machine.Stocking

/-!
Calls of stubs. In an engine whose compiled stubs lead to what their sources say, a call of a stub runs the
graph of its body, and a stub that asks the host gets the answer of the callback.
-/

namespace ScriptEngine

open State

namespace StubLibrary

/-- The source of a stub of the library. -/
theorem declared_of_mem {name : String} {source : StubSource} (h : (name, source) ∈ standardSources) :
    standard.declared[name]? = some source := by
  refine Std.TreeMap.getElem?_ofList_of_mem Std.ReflCmp.compare_self ?_ h
  refine (List.pairwise_map.mp standardSources_distinct).imp fun hne hsame => ?_
  exact hne (Std.compare_eq_iff_eq.mp hsame)

end StubLibrary

namespace Engine

open Builder Machine

variable {e e₀ : Engine} {T : Contents} {w f : Word} {name : String} {p : Program} {self : Activation} {depth : Nat}

theorem Standing.mono {g : Graph} {words : InstrId → Nat → Word} (h : Standing g e₀ words) (on : GoesOn e₀ e) :
    Standing g e words := by
  obtain ⟨nested, hstands⟩ := h
  exact ⟨nested, fun b hb i hi op k c hop hk hc => (hstands b hb i hi op k c hop hk hc).mono on.compiled on.heap⟩

/-- What the word of an operand stands for. -/
theorem Standing.word {g : Graph} {words : InstrId → Nat → Word} (h : Standing g e words) {b : BlockId}
    (hb : Relation.ReflTransGen g.Edge ⟨0⟩ b) {i : Instr} (hi : i ∈ g.code b) {op : PrimOp} {k : Nat} {c : Const}
    (hop : i.op = .prim op) (hk : op.roles[k]? = some .operand ∨ k = i.inputs.length) (hc : i.constAt? k = some c) :
    ∃ nested, Stands nested e c (words i.id k) := by
  obtain ⟨nested, hstands⟩ := h
  exact ⟨nested, hstands b hb i hi op k c hop hk hc⟩

/-- What the word of an operand of a listing stands for. -/
theorem Standing.row {name : String} {rows : List Row} {next : List (List BlockId)} {words : InstrId → Nat → Word}
    (h : Standing (.ofRows name rows next) e words) {k : Nat} {op : PrimOp} {inputs : List Input} {b : Nat}
    (hrow : rows[k]? = some (op, inputs, b)) (hlt : b < next.length)
    (hb : Relation.ReflTransGen (Graph.ofRows name rows next).Edge ⟨0⟩ ⟨b⟩) {i : Nat} {c : Const}
    (hc : (⟨⟨k⟩, .prim op, inputs, ⟨b⟩⟩ : Instr).constAt? i = some c) (hi : op.roles[i]? = some .operand) :
    ∃ nested, Stands nested e c (words ⟨k⟩ i) := by
  refine h.word hb (i := ⟨⟨k⟩, .prim op, inputs, ⟨b⟩⟩) ?_ rfl (.inl hi) hc
  rw [Graph.code_ofRows hlt]
  refine List.mem_filter.mpr ⟨List.mem_of_getElem? (i := k) ?_, by simp⟩
  rw [getElem?_number, hrow, Nat.zero_add]
  rfl

/-- The word of a small integer among the operands of a listing. -/
theorem Standing.smi {name : String} {rows : List Row} {next : List (List BlockId)} {words : InstrId → Nat → Word}
    (h : Standing (.ofRows name rows next) e words) {k : Nat} {op : PrimOp} {inputs : List Input} {b : Nat}
    (hrow : rows[k]? = some (op, inputs, b)) (hlt : b < next.length)
    (hb : Relation.ReflTransGen (Graph.ofRows name rows next).Edge ⟨0⟩ ⟨b⟩) {i : Nat} {n : Int}
    (hc : (⟨⟨k⟩, .prim op, inputs, ⟨b⟩⟩ : Instr).constAt? i = some (.smi n)) (hi : op.roles[i]? = some .operand) {v : Word}
    (hv : Word.ofSmi? n = some v) : words ⟨k⟩ i = v := by
  obtain ⟨_, hstands⟩ := h.row hrow hlt hb hc hi
  exact hstands v hv

/-! ### From functions to routines -/

/-- A fixed field of a cell, where generated code looks for it. -/
theorem load_cell (laid : Laid e.heap T) {c : Cell} (hw : T w = some c) {i : Nat} {v : Word}
    (hi : (c.words e.heap.rootShape)[i]? = some v) : e.heap.memory.load (addressAt w (8 * i - 1)) = v := by
  have hread := laid.read hw hi
  have hlt := (List.getElem?_eq_some_iff.mp hi).1
  have hbelow := laid.below hw
  have hsmi : w.isSmi = false := by
    rw [laid.pointer hw]
    exact Word.isSmi_pointer _
  have haddress : addressAt w (8 * i - 1) = w.address + 8 * i := by
    have := addressAt_field (k := 8 * i) hsmi (by unfold Cell.size at hbelow; omega)
    push_cast at this
    exact this
  rw [haddress]
  exact hread

theorem callFunction_eq (laid : Laid e.heap T) {s st code : Word} {more : List Word} {entry : Word} {rest : List Word}
    (hf : T f = some (.object s st (code :: more))) (hcode : T code = some (.leaf .code (entry :: rest)))
    (call : Caller) : callFunction call f self e = call entry.toNat self e := by
  have hfirst : e.heap.memory.load (addressAt f (Layout.Function.code - 1)) = code := load_cell (i := 2) laid hf rfl
  have hsecond : e.heap.memory.load (addressAt code (Layout.Code.entry - 1)) = entry :=
    load_cell (i := 1) laid hcode rfl
  have hload : ∀ address (f : Word → RunM Word), (load address >>= f) e = f (e.heap.memory.load address) e := fun _ _ => rfl
  rw [callFunction, hload, hload, hfirst, hsecond]

/-- Debug traps do not end a run, if there are any. -/
def Calm (e : Engine) : Prop := e.config.trapOnEntry = true → e.config.stopAtTrap = false

theorem calm_of_not_trapping (h : e.config.trapOnEntry = false) : e.Calm := fun htrap => by
  rw [h] at htrap
  cases htrap

/-- An engine in which a function has just been entered. -/
def entered (e : Engine) : Engine := if e.config.trapOnEntry then { e with traps := e.traps + 1 } else e

/-- The budget of jumps, apart from the few that are needed. -/
theorem exists_maxJumps {k : Nat} (few : k ≤ maxJumps) : ∃ jumps, maxJumps = jumps + k :=
  ⟨maxJumps - k, (Nat.sub_add_cancel few).symm⟩

theorem enter_program {entry : Nat} (calm : e.Calm) (hp : e.routines[entry]? = some (.program p))
    (htrap : p.trapOnEntry = e.config.trapOnEntry) :
    enter (depth + 1) entry self e = runFrom (enter depth) p self maxJumps ⟨0⟩ ∅ e.entered := by
  unfold enter
  refine (get_bind _).trans ?_
  simp only [hp, htrap, entered]
  cases hconfig : e.config.trapOnEntry with
  | false => rfl
  | true =>
    have hrun : trap e = .ok () { e with traps := e.traps + 1 } := by
      unfold trap
      refine (get_bind _).trans ?_
      rw [calm hconfig]
      rfl
    exact bind_of_ok hrun

/-- The code of a listing with one block. -/
theorem Stublike.line_code {title : String} {rows : List Row} (hg : Stublike (.ofRows title rows [[]])) :
    (Graph.ofRows title rows [[]]).code ⟨0⟩ = number 0 rows := by
  rw [Graph.code_ofRows (Nat.one_pos)]
  refine List.filter_eq_self.mpr fun i hi => ?_
  obtain ⟨k, hk⟩ := List.mem_iff_getElem?.mp hi
  have hplaced := hg.listed.placed k i (by simpa [Graph.ofRows] using hk)
  have hfirst : i.block.index = 0 := by
    by_contra hne
    rw [Graph.listing, Array.getD_eq_getD_getElem?, Array.getElem?_eq_none (by simp [Graph.ofRows]; omega)] at hplaced
    cases hplaced
  exact decide_eq_true (congrArg BlockId.mk hfirst)

namespace Shelved

variable (shelved : Shelved T e)

include shelved

/-- The source of a compiled stub is that of the library. -/
theorem source {s : Stub} {source : StubSource} (hs : e.stubs.compiled? name = some s)
    (hmem : (name, source) ∈ StubLibrary.standardSources) : ∃ r, Calls T e s.function r ∧ Made name source r e := by
  obtain ⟨source', r, hsource, hcalls, hmade⟩ := shelved.stubs hs
  rw [shelved.declared, StubLibrary.declared_of_mem hmem] at hsource
  cases hsource
  exact ⟨r, hcalls, hmade⟩

theorem leadsToHost {s : Stub} (hs : e.stubs.compiled? hostStub = some s) : LeadsToHost e s.function := by
  obtain ⟨r, ⟨_, _, code, more, hf, entry, rest, hcode, hr⟩, rfl⟩ := shelved.source hs (.head _)
  have hfirst : e.heap.memory.load (addressAt s.function (Layout.Function.code - 1)) = code :=
    load_cell (i := 2) shelved.laid hf rfl
  have hsecond : e.heap.memory.load (addressAt code (Layout.Code.entry - 1)) = entry :=
    load_cell (i := 1) shelved.laid hcode rfl
  unfold LeadsToHost
  simp only [hfirst, hsecond, hr]

/-- A call of a stub runs the graph of its body. -/
theorem stub_runs (calm : e.Calm) {body : BuildM Unit} {s : Stub} {g : Graph} (hs : e.stubs.compiled? name = some s)
    (hmem : (name, .body body) ∈ StubLibrary.standardSources) (hbuild : build name body = .ok g) (hg : Stublike g) :
    ∃ words, Standing g e words ∧ ∀ depth self, callFunction (enter (depth + 1)) s.function self e =
      (machineWorld words (enter depth) self).run g maxJumps e.entered := by
  obtain ⟨r, ⟨_, _, code, more, hf, entry, rest, hcode, hr⟩, p, e₀, rfl, htrap, hgenerated, hon⟩ :=
    shelved.source hs hmem
  obtain ⟨words, hstanding, hruns⟩ := hgenerated.runs hbuild hg
  refine ⟨words, hstanding.mono hon, fun depth self => ?_⟩
  rw [callFunction_eq shelved.laid hf hcode, enter_program calm hr htrap, hruns]

/-- A call of a stub whose body is one block that returns. -/
theorem line_runs (calm : e.Calm) {body : BuildM Unit} {s : Stub} {title : String} {rows : List Row}
    (hs : e.stubs.compiled? name = some s) (hmem : (name, .body body) ∈ StubLibrary.standardSources)
    (hbuild : build name body = .ok (.ofRows title rows [[]])) (hg : Stublike (.ofRows title rows [[]])) :
    ∃ words, Standing (.ofRows title rows [[]]) e words ∧ ∀ {depth self w t},
      (machineWorld words (enter depth) self).runCode (number 0 rows) { regs := fun _ => default } e.entered =
        .ok (.returned w) t → callFunction (enter (depth + 1)) s.function self e = .ok w t := by
  obtain ⟨words, hstanding, hruns⟩ := shelved.stub_runs calm hs hmem hbuild hg
  obtain ⟨jumps, hjumps⟩ : ∃ jumps, maxJumps = jumps + 1 := exists_maxJumps (by decide)
  rw [hjumps] at hruns
  exact ⟨words, hstanding, fun {depth self w t} hrun => (hruns depth self).trans (runAt_ends (hg.line_code ▸ hrun))⟩

end Shelved

end Engine
end ScriptEngine
