import ScriptEngine.Graph.Builder
import ScriptEngine.Proofs.Graph.Dominance

/-!
The form of blocks. A block starts with its parameters, and ends with a return, a branch, or the
values that it passes to the next block. In between stand simple instructions and calls; the
arguments of a call are pushed right before it.
-/

namespace ScriptEngine

/-- Constants that are values of scripts. -/
def Const.isValue : Const → Bool
  | smi _ | number _ | text _ | bool _ | undefined | null => true
  | _ => false

/-- Stubs that instructions of scripts are turned into. -/
def calledStubs : List String :=
  ["allocFn", "allocObject", "allocArray", "new", "checkFunction", "coerce/boolean",
    "loadPropertySlot", "storePropertySlot", "deletePropertySlot"] ++
  [UnaryOp.neg, UnaryOp.not].map (fun op => "unary/" ++ op.symbol) ++
  BinaryOp.all.map fun op => "binary/" ++ op.symbol

open Builder (raw)

/-- Operations with their operands that neither pass or take arguments nor end a block. -/
inductive Simple : Op → List Input → Prop where
  | literal {c : Const} : c.isValue = true → Simple (.prim .literal) [.const c]
  | code (index : Nat) : Simple (.prim .code) [.const (.function index)]
  | global : Simple (.prim .global) []
  | receiver : Simple (.prim .receiver) []
  | arg (index : Nat) : Simple (.prim .arg) [raw index]
  | trap : Simple (.prim .trap) []
  | loadGlobal (name : String) : Simple (.script .loadGlobal) [.const (.text name)]
  | storeGlobal (name : String) (v : InstrId) :
    Simple (.script .storeGlobal) [.const (.text name), .value v]
  | deleteGlobal (name : String) : Simple (.script .deleteGlobal) [.const (.text name)]
  | loadProperty (o k : InstrId) : Simple (.script .loadProperty) [.value o, .value k]
  | storeProperty (o k v : InstrId) :
    Simple (.script .storeProperty) [.value o, .value k, .value v]
  | deleteProperty (o k : InstrId) : Simple (.script .deleteProperty) [.value o, .value k]
  | object : Simple (.script .object) []
  | array (length : Nat) : Simple (.script .array) [raw length]
  | closure (index : Nat) : Simple (.script .closure) [.const (.function index)]
  | unary (op : UnaryOp) (v : InstrId) : Simple (.script .unary) [.const (.unary op), .value v]
  | binary (op : BinaryOp) (l r : InstrId) :
    Simple (.script .binary) [.const (.binary op), .value l, .value r]

/-- Calls with their operands that take `n` pushed arguments. -/
inductive Takes (n : Nat) : Op → List Input → Prop where
  | call (f r : InstrId) : Takes n (.prim .call) [.value f, .value r, raw n]
  | construct (f : InstrId) : Takes n (.script .construct) [.value f, raw n]
  | stub {name : String} : name ∈ calledStubs →
    Takes n (.prim .callStub) [.const (.stub name), raw n]
  | cache (kind : CacheKind) : Takes n (.prim .callStub) [.const (.cache kind), raw n]

namespace Instr

def IsPush (i : Instr) : Prop := i.op = .prim .push ∧ ∃ v, i.inputs = [.value v]

def IsLiteral (i : Instr) : Prop :=
  i.op = .prim .literal ∧ ∃ c : Const, c.isValue = true ∧ i.inputs = [.const c]

def IsPhi (i : Instr) : Prop := i.op = .prim .phi ∧ i.inputs = []

def IsPass (i : Instr) : Prop := i.op = .prim .toPhi ∧ ∃ p v, i.inputs = [.value p, .value v]

/-- The parameter that the instruction passes a value to. -/
def passTarget? (i : Instr) : Option InstrId :=
  if i.op = .prim .toPhi then i.inputs.head?.bind Input.value? else none

end Instr

/-- Number of pushes in a piece of code. -/
def pushCount (code : List Instr) : Nat := code.countP (·.op == .prim .push)

/-- Code between the parameters and the end of a block. Literals may stand between the pushes of a
stub call. -/
inductive BlockBody : List Instr → Prop where
  | nil : BlockBody []
  | simple {i : Instr} {rest : List Instr} : Simple i.op i.inputs → BlockBody rest → BlockBody (i :: rest)
  | call {area rest : List Instr} {i : Instr} :
    (∀ j ∈ area, j.IsPush ∨ j.IsLiteral ∧ i.op ≠ .prim .call) → Takes (pushCount area) i.op i.inputs → BlockBody rest →
      BlockBody (area ++ i :: rest)

theorem BlockBody.append {xs ys : List Instr} (hx : BlockBody xs) (hy : BlockBody ys) : BlockBody (xs ++ ys) := by
  induction hx with
  | nil => exact hy
  | simple hi _ ih => exact .simple hi ih
  | call harea hi _ ih =>
    rw [List.append_assoc, List.cons_append]
    exact .call harea hi ih

/-- What stands in the middle of a block. -/
theorem BlockBody.mem_cases {code : List Instr} (h : BlockBody code) {i : Instr} (hi : i ∈ code) :
    i.IsPush ∨ Simple i.op i.inputs ∨ ∃ n, Takes n i.op i.inputs := by
  induction h with
  | nil => cases hi
  | simple hs _ ih =>
    rcases List.mem_cons.mp hi with rfl | hi
    · exact .inr (.inl hs)
    · exact ih hi
  | call harea ht _ ih =>
    rcases List.mem_append.mp hi with hi | hi
    · rcases harea i hi with hpush | ⟨⟨hop, c, hc, hins⟩, -⟩
      · exact .inl hpush
      · rw [hop, hins]
        exact .inr (.inl (.literal hc))
    · rcases List.mem_cons.mp hi with rfl | hi
      · exact .inr (.inr ⟨_, ht⟩)
      · exact ih hi

theorem BlockBody.op_ne_phi {code : List Instr} (h : BlockBody code) : ∀ i ∈ code, i.op ≠ .prim .phi := by
  intro i hi
  rcases h.mem_cases hi with ⟨hop, -⟩ | hs | ⟨n, ht⟩
  · simp [hop]
  · generalize i.op = op, i.inputs = ins at hs
    cases hs <;> simp
  · generalize i.op = op, i.inputs = ins at ht
    cases ht <;> simp

theorem BlockBody.op_ne_toPhi {code : List Instr} (h : BlockBody code) :
    ∀ i ∈ code, i.op ≠ .prim .toPhi := by
  intro i hi
  rcases h.mem_cases hi with ⟨hop, -⟩ | hs | ⟨n, ht⟩
  · simp [hop]
  · generalize i.op = op, i.inputs = ins at hs
    cases hs <;> simp
  · generalize i.op = op, i.inputs = ins at ht
    cases ht <;> simp

/-- A single instruction, wherever it stands in a block. -/
inductive Shaped (i : Instr) : Prop where
  | phi : i.IsPhi → Shaped i
  | push : i.IsPush → Shaped i
  | simple : Simple i.op i.inputs → Shaped i
  | takes {n : Nat} : Takes n i.op i.inputs → Shaped i
  | pass : i.IsPass → Shaped i
  | exit {v : InstrId} : i.op = .prim .ret ∨ i.op = .script .branch ∨ i.op = .prim .isTrue →
    i.inputs = [.value v] → Shaped i

theorem Instr.IsLiteral.shaped {i : Instr} (h : i.IsLiteral) : Shaped i := by
  obtain ⟨hop, c, hc, hins⟩ := h
  apply Shaped.simple
  rw [hop, hins]
  exact .literal hc

/-- The operands of an operation of scripts that is simple. -/
theorem Shaped.simple_script {b : BlockId} {x : InstrId} {s : ScriptOp} {ins : List Input}
    (hs : Shaped ⟨x, .script s, ins, b⟩) (hb : s ≠ .branch) (hc : s ≠ .construct) :
    Simple (.script s) ins := by
  cases hs with
  | phi h => cases h.1
  | push h => cases h.1
  | simple h => exact h
  | takes h =>
    cases h
    exact absurd rfl hc
  | pass h => cases h.1
  | exit hop _ =>
    rcases hop with hop | hop | hop
    · cases hop
    · cases hop
      exact absurd rfl hb
    · cases hop

theorem Shaped.simple_literal {b : BlockId} {x : InstrId} {ins : List Input}
    (hs : Shaped ⟨x, .prim .literal, ins, b⟩) : Simple (.prim .literal) ins := by
  cases hs with
  | phi h => cases h.1
  | push h => cases h.1
  | simple h => exact h
  | takes h => cases h
  | pass h => cases h.1
  | exit hop _ => rcases hop with hop | hop | hop <;> cases hop

theorem Shaped.inputs_of_phi {i : Instr} (hs : Shaped i) (hop : i.op = .prim .phi) : i.inputs = [] := by
  obtain ⟨x, op, ins, b⟩ := i
  cases hop
  cases hs with
  | phi h => exact h.2
  | push h => cases h.1
  | simple h => cases h
  | takes h => cases h
  | pass h => cases h.1
  | exit hop _ => rcases hop with hop | hop | hop <;> cases hop

theorem Shaped.inputs_of_ret {i : Instr} (hs : Shaped i) (hop : i.op = .prim .ret) : ∃ v, i.inputs = [.value v] := by
  obtain ⟨x, op, ins, b⟩ := i
  cases hop
  cases hs with
  | phi h => cases h.1
  | push h => cases h.1
  | simple h => cases h
  | takes h => cases h
  | pass h => cases h.1
  | exit _ hins => exact ⟨_, hins⟩

/-- Inline caches end otherwise than functions of scripts. -/
theorem Shaped.no_cache_exit {i : Instr} (hs : Shaped i) : i.op ≠ .prim .cacheRet ∧ i.op ≠ .prim .tailCall := by
  obtain ⟨x, op, ins, b⟩ := i
  constructor <;> rintro rfl <;> cases hs with
  | phi h => cases h.1
  | push h => cases h.1
  | simple h => cases h
  | takes h => cases h
  | pass h => cases h.1
  | exit hop _ => rcases hop with hop | hop | hop <;> cases hop

namespace Graph

/-- Parameters of a block. -/
def parameters (g : Graph) (b : BlockId) : List InstrId :=
  ((g.code b).filter (·.op == .prim .phi)).map (·.id)

/-- How a block with the given successors ends. -/
inductive Ends (g : Graph) : List BlockId → List Instr → Prop where
  | ret {i : Instr} {v : InstrId} : i.op = .prim .ret → i.inputs = [.value v] → Ends g [] [i]
  | branch {i : Instr} {v : InstrId} {yes no : BlockId} :
    i.op = .script .branch ∨ i.op = .prim .isTrue → i.inputs = [.value v] →
      g.parameters yes = [] → g.parameters no = [] → Ends g [yes, no] [i]
  | jump {passes : List Instr} {target : BlockId} : (∀ i ∈ passes, i.IsPass ∨ i.IsLiteral) →
    passes.filterMap Instr.passTarget? = g.parameters target → Ends g [target] passes

theorem Ends.op_ne_call {g : Graph} {next : List BlockId} {code : List Instr} (h : g.Ends next code) :
    ∀ i ∈ code, i.op ≠ .prim .call := by
  intro i hi
  cases h with
  | ret hop _ => simp [List.mem_singleton.mp hi, hop]
  | branch hop _ _ _ => rcases hop with hop | hop <;> simp [List.mem_singleton.mp hi, hop]
  | jump hall _ => rcases hall i hi with ⟨hop, -⟩ | ⟨hop, -⟩ <;> simp [hop]

/-- A finished block. -/
structure Form (g : Graph) (b : BlockId) (heads body tail : List Instr) : Prop where
  code : g.code b = heads ++ (body ++ tail)
  heads : ∀ i ∈ heads, i.IsPhi
  body : BlockBody body
  ends : g.Ends (g.successors b) tail

theorem Form.shaped {g : Graph} {b : BlockId} {heads body tail : List Instr}
    (h : g.Form b heads body tail) {i : Instr} (hi : i ∈ g.code b) : Shaped i := by
  rw [h.code, List.mem_append, List.mem_append] at hi
  rcases hi with hi | hi | hi
  · exact .phi (h.heads i hi)
  · rcases h.body.mem_cases hi with hp | hs | ⟨n, ht⟩
    · exact .push hp
    · exact .simple hs
    · exact .takes ht
  · have hends := h.ends
    generalize g.successors b = next at hends
    cases hends with
    | ret hop hins =>
      obtain rfl := List.mem_singleton.mp hi
      exact .exit (.inl hop) hins
    | branch hop hins _ _ =>
      obtain rfl := List.mem_singleton.mp hi
      exact .exit (.inr hop) hins
    | jump hall _ =>
      rcases hall i hi with hp | hlit
      · exact .pass hp
      · exact hlit.shaped

/-! ### Questions about blocks -/

section

variable {g : Graph} {b : BlockId} {B : Block}

theorem of_block_eq_ok (h : g.block b = .ok B) :
    b.index < g.blocks.size ∧ B.instrs = g.listing b ∧ B.successors = g.successors b := by
  unfold Graph.block at h
  split at h
  · rename_i content hget
    cases h
    refine ⟨(Array.getElem?_eq_some_iff.mp hget).1, ?_, ?_⟩
    · rw [listing, Array.getD_eq_getD_getElem?, hget]
      rfl
    · rw [successors, Array.getD_eq_getD_getElem?, hget]
      rfl
  · cases h

/-- The instructions that a block lists are its code. -/
theorem Listed.forall₂_code (hl : g.Listed) (b : BlockId) :
    List.Forall₂ (fun id i => g.instr id = .ok i) (g.listing b) (g.code b) := by
  have hget : ∀ i ∈ g.code b, g.instr i.id = .ok i := fun i hi => by
    rw [Graph.instr, (hl.mem_code_iff.mp hi).2]
  rw [← hl.code_ids b]
  generalize g.code b = code at hget
  induction code with
  | nil => exact .nil
  | cons i rest ih => exact .cons (hget i (by simp)) (ih fun j hj => hget j (by simp [hj]))

theorem Listed.phis_eq (hl : g.Listed) (h : g.block b = .ok B) : g.phis b = .ok (g.parameters b) := by
  have hinstrs : ∀ {ids : List InstrId} {code : List Instr},
      List.Forall₂ (fun id i => g.instr id = .ok i) ids code → ids.mapM g.instr = .ok code := by
    intro ids code hall
    induction hall with
    | nil => rfl
    | cons hi _ ih =>
      rw [List.mapM_cons, hi, ih]
      rfl
  unfold Graph.phis
  rw [h]
  change (B.instrs.mapM g.instr >>= _) = _
  rw [(of_block_eq_ok h).2.1, hinstrs (hl.forall₂_code b)]
  rfl

theorem Listed.eq_of_phis (hl : g.Listed) {params : List InstrId} (h : g.phis b = .ok params) :
    params = g.parameters b := by
  cases hb : g.block b with
  | ok B => exact Except.ok.inj (h.symm.trans (hl.phis_eq hb))
  | error e =>
    rw [Graph.phis, hb] at h
    cases h

end

end Graph
end ScriptEngine
