import ScriptEngine.Proofs.Heap.Words
import ScriptEngine.Proofs.Machine.Constants
import ScriptEngine.Proofs.Machine.Steps
import ScriptEngine.Proofs.Machine.Stubs

/-!
Listings of stubs. A listing gives the instructions of a graph in the order of their numbers, each with
its block, and the successors of each block. So the code of a block is what the listing has for it.
-/

namespace ScriptEngine

/-- An operation, its inputs and its block. -/
abbrev Row := PrimOp × List Input × Nat

/-- Instructions of a listing, numbered from `n` on. -/
def number : Nat → List Row → List Instr
  | _, [] => []
  | n, (op, inputs, b) :: rest => ⟨⟨n⟩, .prim op, inputs, ⟨b⟩⟩ :: number (n + 1) rest

section

variable {n k : Nat} {rows : List Row} {i : Instr}

@[simp] theorem length_number : (number n rows).length = rows.length := by
  induction rows generalizing n with
  | nil => rfl
  | cons row rows ih => exact congrArg (· + 1) ih

theorem getElem?_number : (number n rows)[k]? =
    rows[k]?.map fun row => ⟨⟨n + k⟩, .prim row.1, row.2.1, ⟨row.2.2⟩⟩ := by
  induction rows generalizing n k with
  | nil => rfl
  | cons row rows ih =>
    cases k with
    | zero => rfl
    | succ k => rw [number, List.getElem?_cons_succ, List.getElem?_cons_succ, ih, Nat.add_right_comm, Nat.add_assoc]

theorem id_of_number (h : (number n rows)[k]? = some i) : i.id = ⟨n + k⟩ := by
  rw [getElem?_number, Option.map_eq_some_iff] at h
  obtain ⟨row, -, rfl⟩ := h
  rfl

theorem getElem?_number_of_mem (h : i ∈ number 0 rows) : (number 0 rows)[i.id.index]? = some i := by
  obtain ⟨k, hk⟩ := List.mem_iff_getElem?.mp h
  have hid := id_of_number hk
  rw [Nat.zero_add] at hid
  rw [hid, hk]

theorem row_of_mem_number (h : i ∈ number n rows) : ∃ row ∈ rows, i.op = .prim row.1 ∧ i.inputs = row.2.1 ∧
    i.block = ⟨row.2.2⟩ := by
  induction rows generalizing n with
  | nil => cases h
  | cons row rows ih =>
    rcases List.mem_cons.mp h with rfl | h
    · exact ⟨row, by simp, rfl, rfl, rfl⟩
    · obtain ⟨row', hmem, hrow⟩ := ih h
      exact ⟨row', by simp [hmem], hrow⟩

end

namespace Graph

/-- The graph of a listing. -/
def ofRows (name : String) (rows : List Row) (next : List (List BlockId)) : Graph where
  name := name
  instrs := (number 0 rows).toArray
  blocks := (next.mapIdx fun k successors =>
    ⟨((number 0 rows).filter (·.block = ⟨k⟩)).map (·.id), successors⟩).toArray

variable {name : String} {rows : List Row} {next : List (List BlockId)} {k : Nat}

theorem block_ofRows (hk : k < next.length) : (ofRows name rows next).blocks.getD k {} =
    ⟨((number 0 rows).filter (·.block = ⟨k⟩)).map (·.id), next[k]⟩ := by
  simp [ofRows, Array.getD_eq_getD_getElem?, hk]

theorem listing_ofRows (hk : k < next.length) : (ofRows name rows next).listing ⟨k⟩ =
    ((number 0 rows).filter (·.block = ⟨k⟩)).map (·.id) := by
  rw [listing, block_ofRows hk]

theorem successors_ofRows (hk : k < next.length) : (ofRows name rows next).successors ⟨k⟩ = next[k] := by
  rw [successors, block_ofRows hk]

theorem edge_ofRows {t : BlockId} (hk : k < next.length) (ht : t ∈ next[k]) :
    (ofRows name rows next).Edge ⟨k⟩ t := by
  rw [Edge, successors_ofRows hk]
  exact ht

theorem code_ofRows (hk : k < next.length) :
    (ofRows name rows next).code ⟨k⟩ = (number 0 rows).filter (·.block = ⟨k⟩) := by
  rw [code, listing_ofRows hk, List.filterMap_map]
  refine (List.filterMap_congr fun i hi => ?_).trans List.filterMap_some
  simpa [ofRows] using getElem?_number_of_mem (List.mem_of_mem_filter hi)

theorem parameters_ofRows (h : ∀ row ∈ rows, row.1 ≠ .phi) (b : BlockId) :
    (ofRows name rows next).parameters b = [] := by
  have hnone : ∀ i ∈ (ofRows name rows next).code b, i.op ≠ .prim .phi := fun i hi => by
    have hmem : i ∈ number 0 rows := by
      obtain ⟨id, -, hget⟩ := mem_code.mp hi
      exact List.mem_of_getElem? (by simpa [ofRows] using hget)
    obtain ⟨row, hrow, hop, -⟩ := row_of_mem_number hmem
    rw [hop]
    exact fun heq => h row hrow (Op.prim.inj heq)
  rw [parameters, List.filter_eq_nil_iff.mpr fun i hi => by simpa using hnone i hi]
  rfl

theorem nodup_number (n : Nat) (rows : List Row) : ((number n rows).map (·.id)).Nodup := by
  have hids : (number n rows).map (·.id) = (List.range' n rows.length).map InstrId.mk := by
    induction rows generalizing n with
    | nil => rfl
    | cons row rows ih => exact congrArg (_ :: ·) (ih (n + 1))
  rw [hids]
  exact List.Nodup.map (fun a b h => InstrId.mk.inj h) List.nodup_range'

theorem listed_ofRows (h : ∀ row ∈ rows, row.2.2 < next.length) : (ofRows name rows next).Listed where
  numbered k i hi := by
    have hid := id_of_number (by simpa [ofRows] using hi)
    rwa [Nat.zero_add] at hid
  found b id hid := by
    by_cases hb : b.index < next.length
    · rw [listing_ofRows (k := b.index) hb] at hid
      obtain ⟨i, hi, rfl⟩ := List.mem_map.mp hid
      obtain ⟨hmem, hblock⟩ := List.mem_filter.mp hi
      exact ⟨i, by simpa [ofRows] using getElem?_number_of_mem hmem, of_decide_eq_true hblock⟩
    · rw [listing, Array.getD_eq_getD_getElem?, Array.getElem?_eq_none (by simpa [ofRows] using hb)] at hid
      cases hid
  once b := by
    by_cases hb : b.index < next.length
    · rw [listing_ofRows (k := b.index) hb]
      exact (nodup_number 0 rows).sublist (List.filter_sublist.map _)
    · rw [listing, Array.getD_eq_getD_getElem?, Array.getElem?_eq_none (by simpa [ofRows] using hb)]
      exact List.nodup_nil
  placed k i hi := by
    have hmem : i ∈ number 0 rows := List.mem_of_getElem? (by simpa [ofRows] using hi)
    obtain ⟨row, hrow, -, -, hblock⟩ := row_of_mem_number hmem
    have hb : i.block.index < next.length := by
      rw [hblock]
      exact h row hrow
    rw [listing_ofRows (k := i.block.index) hb]
    exact List.mem_map_of_mem (List.mem_filter.mpr ⟨hmem, by simp⟩)

end Graph

instance (code : List Instr) : Decidable (Primitive code) :=
  decidable_of_iff (Unframed code ∧ (∀ i ∈ code, i.op.isPrim = true) ∧ ∀ i ∈ code, i.op ≠ .prim .call)
    ⟨fun ⟨hu, hprim, hplain⟩ => ⟨hu, hprim, hplain⟩, fun h => ⟨h.toUnframed, h.prim, h.plain⟩⟩

namespace Engine

/-- Whether the blocks of a listing are those of a stub. -/
def StubRows (rows : List Row) (next : List (List BlockId)) : Prop :=
  (∀ row ∈ rows, row.2.2 < next.length) ∧ ∀ k < next.length,
    let code := (number 0 rows).filter (·.block = ⟨k⟩)
    Primitive code ∧ Settles code ∧ code.foldl forwardsAfter false = false

instance (rows : List Row) (next : List (List BlockId)) : Decidable (StubRows rows next) :=
  inferInstanceAs (Decidable (_ ∧ _))

theorem StubRows.stublike {name : String} {rows : List Row} {next : List (List BlockId)} (h : StubRows rows next) :
    Stublike (Graph.ofRows name rows next) := by
  have hblock : ∀ b, Primitive ((Graph.ofRows name rows next).code b) ∧
      Settles ((Graph.ofRows name rows next).code b) ∧
      ((Graph.ofRows name rows next).code b).foldl forwardsAfter false = false := by
    intro b
    by_cases hb : b.index < next.length
    · rw [Graph.code_ofRows (k := b.index) hb]
      exact h.2 b.index hb
    · rw [Lowering.code_eq_nil (by simpa [Graph.ofRows] using hb)]
      decide
  exact ⟨Graph.listed_ofRows h.1, fun b => (hblock b).1, fun b => (hblock b).2.1, fun b => (hblock b).2.2⟩

end Engine

/-! ### Calls of the host -/

open Builder Engine

/-- Rows that push values. -/
def pushRows (args : List InstrId) (b : Nat) : List Row := args.map fun a => (.push, [.value a], b)

/-- Rows that call the host with some values; the first of them has the number `n`. -/
def hostRows (name : String) (args : List InstrId) (n b : Nat) : List Row :=
  pushRows args.reverse b ++ [(.literal, [.const (.callback name)], b), (.push, [.value ⟨n + args.length⟩], b),
    (.callStub, [.const (.stub hostStub), raw (args.length + 1)], b)]

theorem number_append {n : Nat} {rows rows' : List Row} :
    number n (rows ++ rows') = number n rows ++ number (n + rows.length) rows' := by
  induction rows generalizing n with
  | nil => simp [number]
  | cons row rows ih =>
    simp only [List.cons_append, number, ih, List.length_cons]
    rw [Nat.add_right_comm]
    rfl

namespace Engine

open Meaning (Progress)

variable {words : InstrId → Nat → Word} {call : Caller} {self : Activation} {s : Progress Word} {name : String}

/-- A stub asks the host: the function of the stub that leads there, the number of the callback, the
receiver, and the arguments. -/
def askHost (call : Caller) (host callback receiver : Word) (args : List Word) : RunM Word :=
  Machine.callFunction call host
    { callee := host, receiver, args := (callback :: args).toArray, argc := .ofInt (args.length + 1) }

theorem runCode_pushRows {args : List InstrId} {n b : Nat} {rest : List Instr} :
    (machineWorld words call self).runCode (number n (pushRows args b) ++ rest) s =
      (machineWorld words call self).runCode rest { s with pushed := args.reverse.map s.regs ++ s.pushed } := by
  induction args generalizing n s with
  | nil => rfl
  | cons a args ih =>
    change (machineWorld words call self).runCode
      (⟨⟨n⟩, .prim .push, [.value a], ⟨b⟩⟩ :: (number (n + 1) (pushRows args b) ++ rest)) s = _
    rw [runCode_push, ih]
    simp [Progress.push]

theorem runCode_hostRows {args : List InstrId} {n b : Nat} {rest : List Instr} :
    (machineWorld words call self).runCode (number n (hostRows name args n b) ++ rest) s = (do
      let value ← askHost call (words ⟨n + args.length + 2⟩ 0) (words ⟨n + args.length⟩ 0)
        (words ⟨n + args.length + 2⟩ 2) (args.map s.regs)
      (machineWorld words call self).runCode rest
        ((s.setReg ⟨n + args.length⟩ (words ⟨n + args.length⟩ 0)).setReg ⟨n + args.length + 2⟩ value)) := by
  unfold hostRows
  rw [number_append, List.append_assoc, runCode_pushRows]
  simp only [number, pushRows, List.length_map, List.length_reverse, List.cons_append, List.nil_append]
  rw [runCode_literal, runCode_push, runCode_callStub]
  simp [askHost, Progress.push, Progress.drop, Progress.setReg, Nat.add_assoc]

/-- In a state of the engine, the code of a function leads to the host. -/
def LeadsToHost (e : Engine) (function : Word) : Prop :=
  let code := e.heap.memory.load (Machine.addressAt function (Layout.Function.code - 1))
  e.routines[(e.heap.memory.load (Machine.addressAt code (Layout.Code.entry - 1))).toNat]? = some .host

theorem enter_host {e : Engine} {entry : Nat} (h : e.routines[entry]? = some .host) (depth : Nat)
    (self : Activation) : Machine.enter (depth + 1) entry self e = callHost (Machine.hostArguments self) e := by
  unfold Machine.enter
  refine (State.get_bind _).trans ?_
  rw [h]

theorem askHost_eq {e : Engine} {host callback receiver : Word} {args : List Word} (h : LeadsToHost e host)
    (hargs : args.length < 2 ^ 32) (depth : Nat) :
    askHost (Machine.enter (depth + 1)) host callback receiver args e = callHost (callback :: args) e := by
  have hcount : (Word.ofInt (args.length + 1)).toNat = args.length + 1 := by
    change (UInt64.ofNat (((args.length + 1 : Int)) % 2 ^ 64).toNat).toNat = _
    rw [UInt64.toNat_ofNat_of_lt' (by show _ < 2 ^ 64; omega)]
    omega
  have hread : (List.range (args.length + 1)).map (fun i => (callback :: args).toArray.getD i default) =
      callback :: args := by
    refine List.ext_getElem (by simp) fun i hi hi' => ?_
    have hlt : i < args.length + 1 := by simpa using hi
    simp [Array.getD_eq_getD_getElem?, hlt]
  have hentry : ∀ self, Machine.callFunction (Machine.enter (depth + 1)) host self e =
      callHost (Machine.hostArguments self) e := fun self => enter_host h depth self
  rw [askHost, hentry, Machine.hostArguments, hcount, hread]

/-- The host finds the callback that a stub means. -/
theorem dispatch_callback {id : Nat} {callback : String} (h : callbackId callback = .ok id) (args : List Word) :
    dispatch (.smi id :: args) = (do
      emitEvent (.callback callback args.length)
      Engine.callback callback args) := by
  have hfound : callbackNames[id]? = some callback := by
    unfold callbackId at h
    split at h
    · rename_i found hfound
      cases h
      obtain ⟨hlt, hget, -⟩ := List.idxOf?_eq_some_iff.mp hfound
      simp [hlt, hget]
    · cases h
  have hlt : id < callbackNames.length := (List.getElem?_eq_some_iff.mp hfound).1
  have hsmi : (Word.smi id).toSmi? = some (id : Int) := by
    have : callbackNames.length = 17 := rfl
    exact Word.toSmi?_smi (by unfold Word.smiMin; omega) (by unfold Word.smiMax; omega)
  unfold dispatch
  simp only [hsmi]
  rw [if_neg (by omega)]
  simp only [Int.toNat_natCast, hfound]

/-! ### Generated code -/

/-- Code generation has made this program of a stub, and left the engine in this state. -/
def Generated (name : String) (body : BuildM Unit) (p : Program) (e : Engine) : Prop :=
  ∃ (g : Graph) (scope : EmissionScope) (nesting : Nat) (nested : Array (Option Word)) (start : Engine)
    (record : CodeRecord), build name body = .ok g ∧ scope.graph = (Lowering.lower g).graph ∧
      scope.resolve = resolve (compileNested nesting) nested ∧ emitProgram scope start = .ok (p, record) e

/-- The words stand for the constants of the code that control can reach. -/
def Standing (g : Graph) (e : Engine) (words : InstrId → Nat → Word) : Prop :=
  ∃ nested, ∀ b, Relation.ReflTransGen g.Edge ⟨0⟩ b → ∀ i ∈ g.code b, ∀ (op : PrimOp) (k : Nat) (c : Const),
    i.op = .prim op → op.roles[k]? = some .operand ∨ k = i.inputs.length → i.constAt? k = some c →
      Stands nested e c (words i.id k)

theorem Generated.runs {body : BuildM Unit} {p : Program} {e : Engine} {g : Graph} (h : Generated name body p e)
    (hbuild : build name body = .ok g) (hg : Stublike g) : ∃ words, Standing g e words ∧ ∀ call self jumps,
      Machine.runFrom call p self jumps ⟨0⟩ ∅ = (machineWorld words call self).run g jumps := by
  obtain ⟨g', scope, nesting, nested, start, record, hbuild', hlower, hresolve, hemit⟩ := h
  obtain rfl : g = g' := Except.ok.inj (hbuild.symm.trans hbuild')
  obtain ⟨words, log, hanswered, hnamed, hruns⟩ := hg.emitProgram_runs hlower hemit
  rw [hresolve] at hanswered
  exact ⟨words, ⟨nested, fun b hb i hi op k c hop hk hc =>
    hanswered.stands c _ (hnamed b hb i hi op hop k c hk hc)⟩, hruns⟩

theorem generated_of_succeeds {body : BuildM Unit} {start : Engine} (h : (match build name body with
    | .ok g => succeeds (emitProgram (scopeOf g) start)
    | .error _ => false) = true) : ∃ p e, Generated name body p e := by
  cases hbuild : build name body with
  | error err =>
    rw [hbuild] at h
    cases h
  | ok g =>
    rw [hbuild] at h
    obtain ⟨⟨p, record⟩, e, hemit⟩ := succeeds_iff.mp h
    exact ⟨p, e, g, scopeOf g, 0, #[], start, record, hbuild, rfl, rfl, hemit⟩

section

variable {g : Graph} {e : Engine} {b : BlockId} (h : Standing g e words)
  (hb : Relation.ReflTransGen g.Edge ⟨0⟩ b)

include h hb

theorem Standing.bool {id : InstrId} {v : Bool} (hi : ⟨id, .prim .literal, [.const (.bool v)], b⟩ ∈ g.code b) :
    words id 0 = e.heap.boolean v := by
  obtain ⟨nested, hstands⟩ := h
  exact hstands b hb _ hi .literal 0 (.bool v) rfl (.inl rfl) rfl

/-- What the words of a call of the host stand for, after some other code. -/
theorem Standing.host_after {args : List InstrId} {n : Nat} {before rest : List Instr} {callback : String}
    (hcode : g.code b = before ++ (number n (hostRows callback args n b.index) ++ rest)) : ∃ host id,
      e.stubs.compiled? hostStub = some host ∧ callbackId callback = .ok id ∧
        words ⟨n + args.length + 2⟩ 0 = host.function ∧ words ⟨n + args.length⟩ 0 = .smi id ∧
        words ⟨n + args.length + 2⟩ 2 = e.heap.undefined := by
  obtain ⟨nested, hstands⟩ := h
  have hmem : ∀ i, i ∈ number (n + args.length) [(.literal, [.const (.callback callback)], b.index),
      (.push, [.value ⟨n + args.length⟩], b.index),
      (.callStub, [.const (.stub hostStub), raw (args.length + 1)], b.index)] → i ∈ g.code b := by
    intro i hi
    rw [hcode, hostRows, number_append]
    simpa [pushRows] using .inr (.inr (.inl hi))
  have hid := hstands b hb ⟨⟨n + args.length⟩, .prim .literal, [.const (.callback callback)], b⟩
    (hmem _ (by simp [number])) .literal 0 (.callback callback) rfl (.inl rfl) rfl
  have hcall := hstands b hb ⟨⟨n + args.length + 2⟩, .prim .callStub, [.const (.stub hostStub), raw (args.length + 1)], b⟩
    (hmem _ (by simp [number])) .callStub
  obtain ⟨id, hid, hw⟩ := hid
  obtain ⟨host, hhost, hw'⟩ := hcall 0 (.stub hostStub) rfl (.inl rfl) rfl
  exact ⟨host, id, hhost, hid, hw', hw, hcall 2 .undefined rfl (.inr rfl) rfl⟩

/-- What the words of a call of the host stand for. -/
theorem Standing.host {args : List InstrId} {n : Nat} {rest : List Instr} {callback : String}
    (hcode : g.code b = number n (hostRows callback args n b.index) ++ rest) : ∃ host id,
      e.stubs.compiled? hostStub = some host ∧ callbackId callback = .ok id ∧
        words ⟨n + args.length + 2⟩ 0 = host.function ∧ words ⟨n + args.length⟩ 0 = .smi id ∧
        words ⟨n + args.length + 2⟩ 2 = e.heap.undefined :=
  h.host_after hb (hcode.trans (List.nil_append _).symm)

end

end Engine
end ScriptEngine
