import ScriptEngine.Lowering
import ScriptEngine.Proofs.Graph.Form
import ScriptEngine.Proofs.Lowering.Rewriting

/-!
What the passes do to single instructions. Each pass removes some operations of scripts, and leaves
all other instructions as they are.
-/

namespace ScriptEngine.Lowering

open State Graph

/-- The pass that removes an operation. -/
def stage : ScriptOp → Nat
  | .loadGlobal | .storeGlobal | .deleteGlobal => 1
  | .closure => 2
  | .object | .array | .construct => 3
  | .loadProperty | .storeProperty | .deleteProperty => 4
  | .unary | .binary => 5
  | .branch => 6

/-- Whether a pass leaves an operation alone. -/
def Stays (k : Nat) (op : Op) : Prop := ∀ s, op = .script s → stage s ≠ k

section

variable (b : BlockId) (id : InstrId)

abbrev literalInstr (c : Const) : Instr := ⟨id, .prim .literal, [.const c], b⟩

abbrev pushInstr (v : InstrId) : Instr := ⟨id, .prim .push, [.value v], b⟩

abbrev stubInstr (name : String) (argc : Nat) : Instr :=
  ⟨id, .prim .callStub, [.const (.stub name), raw argc], b⟩

end

/-- The call of an inline cache: flag, three pushes, and the call, whose result is the slot. -/
abbrev lookupCode (b : BlockId) (kind : CacheKind) (update : Bool) (o k u p₁ p₂ p₃ slot : InstrId) :
    List Instr :=
  [literalInstr b u (.bool update), pushInstr b p₁ u, pushInstr b p₂ k, pushInstr b p₃ o,
    ⟨slot, .prim .callStub, [.const (.cache kind), raw 3], b⟩]

/-- A store into an array literal of a graph, at an index that is known and inside of it. -/
structure ElementStore (g : Graph) (b : BlockId) (array key : InstrId) (index : Int) : Prop where
  array : ∃ length : Nat, index < length ∧
    ⟨array, .script .array, [raw length], b⟩ ∈ g.code b
  nonneg : 0 ≤ index
  key : ∃ b', literalInstr b' key (.smi index) ∈ g.code b'

/-- A key that a literal of a graph defines. -/
def FixedKey (g : Graph) (key : InstrId) : Prop := ∃ b c, literalInstr b key c ∈ g.code b

/-- What a pass makes of an instruction. -/
inductive Step (g : Graph) : Nat → Instr → List Instr → Prop where
  | keep {k : Nat} {i : Instr} : Stays k i.op → Step g k i [i]
  | loadGlobal {x a k : InstrId} {b : BlockId} (name : String) :
    Step g 1 ⟨x, .script .loadGlobal, [.const (.text name)], b⟩
      [⟨a, .prim .global, [], b⟩, literalInstr b k (.text name),
        ⟨x, .script .loadProperty, [.value a, .value k], b⟩]
  | storeGlobal {x a k v : InstrId} {b : BlockId} (name : String) :
    Step g 1 ⟨x, .script .storeGlobal, [.const (.text name), .value v], b⟩
      [⟨a, .prim .global, [], b⟩, literalInstr b k (.text name),
        ⟨x, .script .storeProperty, [.value a, .value k, .value v], b⟩]
  | deleteGlobal {x a k : InstrId} {b : BlockId} (name : String) :
    Step g 1 ⟨x, .script .deleteGlobal, [.const (.text name)], b⟩
      [⟨a, .prim .global, [], b⟩, literalInstr b k (.text name),
        ⟨x, .script .deleteProperty, [.value a, .value k], b⟩]
  | closure {x c p : InstrId} {b : BlockId} (index : Nat) :
    Step g 2 ⟨x, .script .closure, [.const (.function index)], b⟩
      [⟨c, .prim .code, [.const (.function index)], b⟩, pushInstr b p c,
        stubInstr b x "allocFn" 1]
  | object {x : InstrId} {b : BlockId} :
    Step g 3 ⟨x, .script .object, [], b⟩ [stubInstr b x "allocObject" 0]
  | array {x n p : InstrId} {b : BlockId} (length : Nat) :
    Step g 3 ⟨x, .script .array, [raw length], b⟩
      [literalInstr b n (.smi length), pushInstr b p n, stubInstr b x "allocArray" 1]
  | construct {x f n p₁ p₂ : InstrId} {b : BlockId} (argc : Nat) :
    Step g 3 ⟨x, .script .construct, [.value f, raw argc], b⟩
      [literalInstr b n (.smi argc), pushInstr b p₁ f, pushInstr b p₂ n,
        stubInstr b x "new" (argc + 2)]
  | element {x array k v slot p₁ p₂ p₃ p₄ : InstrId} {b : BlockId} {index : Int} :
    ElementStore g b array k index →
    Step g 3 ⟨x, .script .storeProperty, [.value array, .value k, .value v], b⟩
      [literalInstr b slot (.smi index), pushInstr b p₁ v, pushInstr b p₂ slot, pushInstr b p₃ k,
        pushInstr b p₄ array, stubInstr b x "storePropertySlot" 4]
  | loadProperty {x o k u p₁ p₂ p₃ slot p₄ p₅ p₆ : InstrId} {b : BlockId} (kind : CacheKind) :
    (kind = .fixed → FixedKey g k) → slot.index = p₂.index + 2 →
    Step g 4 ⟨x, .script .loadProperty, [.value o, .value k], b⟩
      (lookupCode b kind false o k u p₁ p₂ p₃ slot ++
        [pushInstr b p₄ slot, pushInstr b p₅ k, pushInstr b p₆ o,
          stubInstr b x "loadPropertySlot" 3])
  | storeProperty {x o k v u p₁ p₂ p₃ slot p₄ p₅ p₆ p₇ : InstrId} {b : BlockId}
    (kind : CacheKind) : (kind = .fixed → FixedKey g k) → slot.index = p₂.index + 2 →
    Step g 4 ⟨x, .script .storeProperty, [.value o, .value k, .value v], b⟩
      (lookupCode b kind true o k u p₁ p₂ p₃ slot ++
        [pushInstr b p₄ v, pushInstr b p₅ slot, pushInstr b p₆ k, pushInstr b p₇ o,
          stubInstr b x "storePropertySlot" 4])
  | deleteProperty {x o k p₁ p₂ : InstrId} {b : BlockId} :
    Step g 4 ⟨x, .script .deleteProperty, [.value o, .value k], b⟩
      [pushInstr b p₁ k, pushInstr b p₂ o, stubInstr b x "deletePropertySlot" 2]
  | unary {x v p : InstrId} {b : BlockId} (op : UnaryOp) :
    Step g 5 ⟨x, .script .unary, [.const (.unary op), .value v], b⟩
      [pushInstr b p v, stubInstr b x ("unary/" ++ op.symbol) 1]
  | binary {x l r p₁ p₂ : InstrId} {b : BlockId} (op : BinaryOp) :
    Step g 5 ⟨x, .script .binary, [.const (.binary op), .value l, .value r], b⟩
      [pushInstr b p₁ r, pushInstr b p₂ l, stubInstr b x ("binary/" ++ op.symbol) 2]
  | branch {x v p t : InstrId} {b : BlockId} :
    Step g 6 ⟨x, .script .branch, [.value v], b⟩
      [pushInstr b p v, stubInstr b t "coerce/boolean" 1, ⟨x, .prim .isTrue, [.value t], b⟩]

/-! ### The passes that look at one instruction at a time -/

section

variable {g : Graph} {n : Nat} {b : BlockId} {i : Instr}

theorem replaces_keep {I : Graph → Prop} {k : Nat} (hi : Stays k i.op) :
    Replaces I n b (Step g k) i (pure ()) := fun _ _ _ hl hI _ hcode =>
  (Runs.keep hl hcode).mono fun _ _ h => ⟨h.1 ▸ hI, [i], .keep hi, h.2⟩

theorem runs_globals (hl : g.Listed) (hs : ∀ b, ∀ i ∈ g.code b, Shaped i) :
    Runs (g.blockIds.forM lowerGlobals) g fun _ g' => Rewrites (Step g 1) g g' := by
  refine runs_local hl (I := fun _ => True) trivial fun b i hi => ?_
  have hblock := hl.block_of_mem hi
  have hshape := hs b i hi
  obtain ⟨x, op, ins, b'⟩ := i
  obtain rfl : b' = b := hblock
  cases op with
  | prim p => exact replaces_keep (by simp [Stays])
  | script s =>
    cases s with
    | loadGlobal =>
      cases hshape.simple_script (by simp) (by simp) with
      | loadGlobal name =>
        intro g' pre post hl' _ _ hcode
        refine ((Cursor.start hl' hcode).insert .global []).bind fun a g₁ h₁ => ?_
        refine (h₁.insert .literal [.const (.text name)]).bind fun k g₂ h₂ => ?_
        exact (h₂.replace rfl _ _).mono fun _ _ h => ⟨trivial, _, .loadGlobal name, h⟩
    | storeGlobal =>
      cases hshape.simple_script (by simp) (by simp) with
      | storeGlobal name v =>
        intro g' pre post hl' _ _ hcode
        refine ((Cursor.start hl' hcode).insert .global []).bind fun a g₁ h₁ => ?_
        refine (h₁.insert .literal [.const (.text name)]).bind fun k g₂ h₂ => ?_
        exact (h₂.replace rfl _ _).mono fun _ _ h => ⟨trivial, _, .storeGlobal name, h⟩
    | deleteGlobal =>
      cases hshape.simple_script (by simp) (by simp) with
      | deleteGlobal name =>
        intro g' pre post hl' _ _ hcode
        refine ((Cursor.start hl' hcode).insert .global []).bind fun a g₁ h₁ => ?_
        refine (h₁.insert .literal [.const (.text name)]).bind fun k g₂ h₂ => ?_
        exact (h₂.replace rfl _ _).mono fun _ _ h => ⟨trivial, _, .deleteGlobal name, h⟩
    | _ => exact replaces_keep (by simp [Stays, stage])

theorem runs_closures (hl : g.Listed) (hs : ∀ b, ∀ i ∈ g.code b, Shaped i) :
    Runs (g.blockIds.forM lowerClosures) g fun _ g' => Rewrites (Step g 2) g g' := by
  refine runs_local hl (I := fun _ => True) trivial fun b i hi => ?_
  have hblock := hl.block_of_mem hi
  have hshape := hs b i hi
  obtain ⟨x, op, ins, b'⟩ := i
  obtain rfl : b' = b := hblock
  cases op with
  | prim p => exact replaces_keep (by simp [Stays])
  | script s =>
    cases s with
    | closure =>
      cases hshape.simple_script (by simp) (by simp) with
      | closure index =>
        intro g' pre post hl' _ _ hcode
        refine ((Cursor.start hl' hcode).insert .code [.const (.function index)]).bind
          fun c g₁ h₁ => ?_
        refine (h₁.push (.value c)).bind ?_
        rintro _ g₂ ⟨p, h₂⟩
        exact (h₂.toStubCall rfl _ _).mono fun _ _ h => ⟨trivial, _, .closure index, h⟩
    | _ => exact replaces_keep (by simp [Stays, stage])

theorem runs_operators (hl : g.Listed) (hs : ∀ b, ∀ i ∈ g.code b, Shaped i) :
    Runs (g.blockIds.forM lowerOperators) g fun _ g' => Rewrites (Step g 5) g g' := by
  refine runs_local hl (I := fun _ => True) trivial fun b i hi => ?_
  have hblock := hl.block_of_mem hi
  have hshape := hs b i hi
  obtain ⟨x, op, ins, b'⟩ := i
  obtain rfl : b' = b := hblock
  cases op with
  | prim p => exact replaces_keep (by simp [Stays])
  | script s =>
    cases s with
    | unary =>
      cases hshape.simple_script (by simp) (by simp) with
      | unary op v =>
        intro g' pre post hl' _ _ hcode
        refine ((Cursor.start hl' hcode).push (.value v)).bind ?_
        rintro _ g₁ ⟨p, h₁⟩
        exact (h₁.toStubCall rfl _ _).mono fun _ _ h => ⟨trivial, _, .unary op, h⟩
    | binary =>
      cases hshape.simple_script (by simp) (by simp) with
      | binary op l r =>
        intro g' pre post hl' _ _ hcode
        refine ((Cursor.start hl' hcode).push (.value r)).bind ?_
        rintro _ g₁ ⟨p₁, h₁⟩
        refine (h₁.push (.value l)).bind ?_
        rintro _ g₂ ⟨p₂, h₂⟩
        exact (h₂.toStubCall rfl _ _).mono fun _ _ h => ⟨trivial, _, .binary op, h⟩
    | _ => exact replaces_keep (by simp [Stays, stage])

theorem runs_branches (hl : g.Listed) (hs : ∀ b, ∀ i ∈ g.code b, Shaped i) :
    Runs (g.blockIds.forM lowerBranches) g fun _ g' => Rewrites (Step g 6) g g' := by
  refine runs_local hl (I := fun _ => True) trivial fun b i hi => ?_
  have hblock := hl.block_of_mem hi
  have hshape := hs b i hi
  obtain ⟨x, op, ins, b'⟩ := i
  obtain rfl : b' = b := hblock
  cases op with
  | prim p => exact replaces_keep (by simp [Stays])
  | script s =>
    cases s with
    | branch =>
      obtain ⟨v, rfl⟩ : ∃ v, ins = [.value v] := by
        cases hshape with
        | phi h => cases h.1
        | push h => cases h.1
        | simple h => cases h
        | takes h => cases h
        | pass h => cases h.1
        | exit _ hins => exact ⟨_, hins⟩
      intro g' pre post hl' _ _ hcode
      refine ((Cursor.start hl' hcode).push (.value v)).bind ?_
      rintro _ g₁ ⟨p, h₁⟩
      refine (h₁.insert .callStub [.const (.stub "coerce/boolean"), raw 1]).bind fun t g₂ h₂ => ?_
      exact (h₂.replace rfl _ _).mono fun _ _ h => ⟨trivial, _, .branch, h⟩
    | _ => exact replaces_keep (by simp [Stays, stage])

/-! ### Literals -/

/-- The literals of a graph that a pass is working on: the old ones are those of `g₀`. -/
def Tame (g₀ g : Graph) : Prop :=
  ∀ b, ∀ j ∈ g.code b, j.op = .prim .literal →
    (∃ c, j.inputs = [.const c]) ∧ (j.id.index < g₀.instrs.size → j ∈ g₀.code b)

theorem tame_of_shaped (hs : ∀ b, ∀ i ∈ g.code b, Shaped i) : Tame g g := by
  intro b j hj hop
  obtain ⟨x, op, ins, b'⟩ := j
  obtain rfl : op = .prim .literal := hop
  refine ⟨?_, fun _ => hj⟩
  cases (hs b _ hj).simple_literal with
  | literal => exact ⟨_, rfl⟩

/-- A piece that is not the instruction itself only has new literals. -/
theorem Step.literals {k : Nat} {piece : List Instr} (h : Step g k i piece) :
    piece = [i] ∨ ∀ j ∈ piece, j.op = .prim .literal →
      j ∈ piece.dropLast ∧ ∃ c, j.inputs = [.const c] := by
  cases h with
  | keep => exact .inl rfl
  | _ => right; simp

theorem Tame.puts {g₀ g' : Graph} {k : Nat} {pre piece post : List Instr} (ht : Tame g₀ g)
    (hn : g₀.instrs.size ≤ g.instrs.size) (hcode : g.code b = pre ++ i :: post)
    (hs : Step g₀ k i piece) (hputs : Puts g g' b pre piece i post) : Tame g₀ g' := by
  intro b' j hj hop
  by_cases hb : b' = b
  · subst hb
    rw [hputs.edits.code] at hj
    have hcases : j ∈ g.code b' ∨ j ∈ piece ∧ piece ≠ [i] := by
      rw [hcode]
      simp only [List.mem_append, List.mem_cons] at hj ⊢
      rcases hj with hj | hj | hj
      · tauto
      · by_cases he : piece = [i]
        · rw [he, List.mem_singleton] at hj
          tauto
        · exact .inr ⟨hj, he⟩
      · tauto
    rcases hcases with hj | ⟨hj, hne⟩
    · exact ht b' j hj hop
    · obtain ⟨hlast, hins⟩ := hs.literals.resolve_left hne j hj hop
      have hnew := hputs.fresh.of_mem_dropLast hlast
      exact ⟨hins, fun hlt => absurd hlt (by omega)⟩
  · rw [hputs.edits.others b' hb] at hj
    exact ht b' j hj hop

/-! ### Properties -/

/-- Whether a key is a literal can be told of every result that exists; literals that are not new
are those of the graph at the start. -/
theorem runs_isLiteral {g₀ : Graph} {k : InstrId} (hl : g.Listed) (ht : Tame g₀ g)
    (hn : g₀.instrs.size ≤ g.instrs.size) (hk : k.index < g₀.instrs.size) :
    Runs (isLiteral (.value k)) g fun fixed g' => g' = g ∧ (fixed = true → FixedKey g₀ k) := by
  obtain ⟨j, hget⟩ : ∃ j, g.instrs[k.index]? = some j :=
    ⟨_, Array.getElem?_eq_getElem (hk.trans_le hn)⟩
  obtain rfl : j.id = k := hl.id_of_getElem? hget
  have hmem := hl.mem_code_of_getElem? hget
  refine Runs.instrOf hl hmem (Runs.pure ⟨rfl, fun hfixed => ?_⟩)
  have hop : j.op = .prim .literal := by simpa using hfixed
  obtain ⟨⟨c, hins⟩, hold⟩ := ht _ j hmem hop
  have heq : literalInstr j.block j.id c = j := by rw [literalInstr, ← hop, ← hins]
  exact ⟨j.block, c, heq ▸ hold hk⟩

theorem runs_lookupSlot {g₀ g₁ : Graph} {pre new post : List Instr}
    (h : Cursor g₁ g b pre new i post) {o k : InstrId} (update : Bool) (ht : Tame g₀ g)
    (hn : g₀.instrs.size ≤ g.instrs.size) (hk : k.index < g₀.instrs.size) :
    Runs (lookupSlot i.id (.value o) (.value k) update) g fun slot g' =>
      ∃ kind u p₁ p₂ p₃, (kind = .fixed → FixedKey g₀ k) ∧ slot.index = p₂.index + 2 ∧
        Cursor g₁ g' b pre (new ++ lookupCode b kind update o k u p₁ p₂ p₃ slot) i post := by
  unfold lookupSlot
  refine (runs_isLiteral h.edits.listed ht hn hk).bind ?_
  rintro fixed _ ⟨rfl, hfixed⟩
  refine (h.literal (.bool update)).bind fun u g₁ h₁ => ?_
  refine (h₁.push (.value u)).bind ?_
  rintro _ g₂ ⟨p₁, h₂⟩
  refine (h₂.push_next (.value k)).bind ?_
  rintro _ g₃ ⟨hsize₃, h₃⟩
  refine (h₃.push_next (.value o)).bind ?_
  rintro _ g₄ ⟨hsize₄, h₄⟩
  refine (h₄.insert_next .callStub _).mono ?_
  rintro slot g₅ ⟨rfl, -, h₅⟩
  refine ⟨if fixed then .fixed else .normal, u, p₁, ⟨g₂.instrs.size⟩, ⟨g₃.instrs.size⟩, fun hkind => hfixed ?_,
    by simp only [hsize₄, hsize₃], ?_⟩
  · cases fixed with
    | true => rfl
    | false => cases hkind
  · simpa only [List.append_assoc, List.cons_append, List.nil_append] using h₅

theorem runs_properties (hl : g.Listed) (hs : ∀ b, ∀ i ∈ g.code b, Shaped i)
    (hreads : ∀ b, ∀ i ∈ g.code b, ∀ id ∈ i.reads, id.index < g.instrs.size) :
    Runs (g.blockIds.forM lowerProperties) g fun _ g' => Rewrites (Step g 4) g g' := by
  refine runs_local hl (tame_of_shaped hs) fun b i hi => ?_
  have hblock := hl.block_of_mem hi
  have hshape := hs b i hi
  have hread := hreads b i hi
  obtain ⟨x, op, ins, b'⟩ := i
  obtain rfl : b' = b := hblock
  cases op with
  | prim p => exact replaces_keep (by simp [Stays])
  | script s =>
    cases s with
    | loadProperty =>
      cases hshape.simple_script (by simp) (by simp) with
      | loadProperty o k =>
        intro g' pre post hl' ht hn hcode
        have hk := hread k (by simp [Instr.reads, Input.value?])
        refine (runs_lookupSlot (Cursor.start hl' hcode) false ht hn hk).bind ?_
        rintro slot g₁ ⟨kind, u, p₁, p₂, p₃, hkind, hnext, h₁⟩
        refine (h₁.push (.value slot)).bind ?_
        rintro _ g₂ ⟨p₄, h₂⟩
        refine (h₂.push (.value k)).bind ?_
        rintro _ g₃ ⟨p₅, h₃⟩
        refine (h₃.push (.value o)).bind ?_
        rintro _ g₄ ⟨p₆, h₄⟩
        refine (h₄.toStubCall rfl _ _).mono fun _ _ h => ?_
        have hstep := @Step.loadProperty g x o k u p₁ p₂ p₃ slot p₄ p₅ p₆ b' kind hkind hnext
        exact ⟨ht.puts hn hcode hstep h, _, hstep, h⟩
    | storeProperty =>
      cases hshape.simple_script (by simp) (by simp) with
      | storeProperty o k v =>
        intro g' pre post hl' ht hn hcode
        have hk := hread k (by simp [Instr.reads, Input.value?])
        refine (runs_lookupSlot (Cursor.start hl' hcode) true ht hn hk).bind ?_
        rintro slot g₁ ⟨kind, u, p₁, p₂, p₃, hkind, hnext, h₁⟩
        refine (h₁.push (.value v)).bind ?_
        rintro _ g₂ ⟨p₄, h₂⟩
        refine (h₂.push (.value slot)).bind ?_
        rintro _ g₃ ⟨p₅, h₃⟩
        refine (h₃.push (.value k)).bind ?_
        rintro _ g₄ ⟨p₆, h₄⟩
        refine (h₄.push (.value o)).bind ?_
        rintro _ g₅ ⟨p₇, h₅⟩
        refine (h₅.toStubCall rfl _ _).mono fun _ _ h => ?_
        have hstep := @Step.storeProperty g x o k v u p₁ p₂ p₃ slot p₄ p₅ p₆ p₇ b' kind hkind hnext
        exact ⟨ht.puts hn hcode hstep h, _, hstep, h⟩
    | deleteProperty =>
      cases hshape.simple_script (by simp) (by simp) with
      | deleteProperty o k =>
        intro g' pre post hl' ht hn hcode
        refine ((Cursor.start hl' hcode).push (.value k)).bind ?_
        rintro _ g₁ ⟨p₁, h₁⟩
        refine (h₁.push (.value o)).bind ?_
        rintro _ g₂ ⟨p₂, h₂⟩
        refine (h₂.toStubCall rfl _ _).mono fun _ _ h => ?_
        have hstep := @Step.deleteProperty g x o k p₁ p₂ b'
        exact ⟨ht.puts hn hcode hstep h, _, hstep, h⟩
    | _ => exact replaces_keep (by simp [Stays, stage])

end

end ScriptEngine.Lowering
