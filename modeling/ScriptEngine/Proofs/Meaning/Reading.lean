import ScriptEngine.Proofs.Lowering.Lowered
import ScriptEngine.Proofs.Meaning.World

/-!
Lowered code read as what it stands for. A pass replaces instructions by pieces of code; so for every
world in which the code after the pass is executed there is one in which the code before it does the
same, and that world reads each replaced instruction as the piece in its place.
-/

namespace ScriptEngine.Meaning

open Graph Lowering State

variable {V ε σ : Type}

namespace World

variable (W : World V ε σ)

/-- Values at the places of an instruction whose first inputs are results, the others constants. -/
def fill (i : Instr) (known : List V) (k : Nat) : V :=
  known[k]?.getD <|
    match i.inputs[k]? with
    | some (.const c) => W.const i.id k c
    | _ => W.const i.id k .undefined

theorem runCode_append (xs ys : List Instr) (s : Progress V) :
    W.runCode (xs ++ ys) s = W.runCode xs s >>= fun
      | .fell s => W.runCode ys s
      | .returned v => return .returned v := by
  induction xs generalizing s with
  | nil => rfl
  | cons i rest ih =>
    obtain ⟨x, op, ins, b⟩ := i
    rw [List.cons_append, runCode, runCode]
    split
    · rfl
    · rfl
    · rw [bind_assoc]
      rfl
    · rw [bind_assoc]
      exact bind_congr fun s' => ih s'

section

variable (s : Progress V) (b : BlockId) (id : InstrId) (rest : List Instr)

/-- An instruction that sets the condition. -/
theorem runCode_test {op : Op} (ins : List Input)
    (hop : op = .script .branch ∨ op = .prim .isTrue) : W.runCode [⟨id, op, ins, b⟩] s = (do
      let holds ← W.test ⟨id, op, ins, b⟩ (W.values s ⟨id, op, ins, b⟩)
      return .fell { s with condition := some holds }) := by
  rcases hop with rfl | rfl <;> exact bind_assoc _ _ _

theorem runCode_literal (c : Const) : W.runCode (literalInstr b id c :: rest) s =
    W.runCode rest (s.setReg id (W.const id 0 c)) := rfl

theorem runCode_code (c : Const) : W.runCode (⟨id, .prim .code, [.const c], b⟩ :: rest) s =
    W.runCode rest (s.setReg id (W.const id 0 c)) := rfl

theorem runCode_push (v : InstrId) : W.runCode (pushInstr b id v :: rest) s =
    W.runCode rest { s with pushed := s.regs v :: s.pushed } := rfl

theorem runCode_open (argc : Nat) : W.runCode (openInstr b id argc :: rest) s =
    W.runCode rest s := rfl

theorem values_fill {i : Instr} (ids : List InstrId) (cs : List Const)
    (hi : i.inputs = ids.map .value ++ cs.map .const) : W.values s i = W.fill i (ids.map s.regs) := by
  funext k
  unfold values fill
  rw [hi]
  by_cases hk : k < ids.length
  · rw [List.getElem?_append_left (by simpa using hk)]
    simp [hk]
  · simp only [List.getElem?_append_right (show (ids.map Input.value).length ≤ k by simpa using hk),
      List.getElem?_eq_none (show (ids.map s.regs).length ≤ k by simpa using hk), Option.getD_none]
    cases hc : (cs.map Input.const)[k - (ids.map Input.value).length]? with
    | none => rfl
    | some input =>
      obtain ⟨c, -, rfl⟩ := List.mem_map.mp (List.mem_of_getElem? hc)
      rfl

theorem runCode_callStub (target : Const) (argc : Nat) :
    W.runCode (⟨id, .prim .callStub, [.const target, raw argc], b⟩ :: rest) s = (do
      let v ← W.act ⟨id, .prim .callStub, [.const target, raw argc], b⟩
        (W.fill ⟨id, .prim .callStub, [.const target, raw argc], b⟩ []) (s.pushed.take argc)
      W.runCode rest ({ s with pushed := s.pushed.drop argc }.setReg id v)) := by
  have hvalues := W.values_fill s (i := ⟨id, .prim .callStub, [.const target, raw argc], b⟩) []
    [target, .raw argc] rfl
  rw [List.map_nil] at hvalues
  rw [← hvalues]
  exact bind_assoc _ _ _

theorem runCode_global : W.runCode (⟨id, .prim .global, [], b⟩ :: rest) s = (do
      let v ← W.act ⟨id, .prim .global, [], b⟩ (W.fill ⟨id, .prim .global, [], b⟩ []) []
      W.runCode rest (s.setReg id v)) := by
  have hvalues := W.values_fill s (i := ⟨id, .prim .global, [], b⟩) [] [] rfl
  rw [List.map_nil] at hvalues
  rw [← hvalues]
  exact bind_assoc _ _ _

end
end World

/-! ### Instructions and the pieces in their place -/

/-- States that agree but for registers with numbers from `n` on. -/
structure Like (n : Nat) (s s' : Progress V) : Prop where
  regs : ∀ id : InstrId, id.index < n → s.regs id = s'.regs id
  pushed : s.pushed = s'.pushed
  forwarded : s.forwarded = s'.forwarded
  condition : s.condition = s'.condition
  arithmetic : s.arithmetic = s'.arithmetic
  passed : s.passed = s'.passed

/-- Departures that agree in the same way. -/
def LikeDeparture (n : Nat) : Departure V → Departure V → Prop
  | .fell s, .fell s' => Like n s s'
  | .returned v, .returned v' => v = v'
  | .fell _, .returned _ => False
  | .returned _, .fell _ => False

/-- A world with the same constants, and the same ends of functions. -/
structure Beside (W' W : World V ε σ) : Prop where
  const : W'.const = W.const
  overflows : W'.overflows = W.overflows
  forwardCall : W'.forwardCall = W.forwardCall
  tailCall : W'.tailCall = W.tailCall
  blank : W'.blank = W.blank
  stuck : W'.stuck = W.stuck
  exhausted : W'.exhausted = W.exhausted

/-- `Reads W' W i piece`: what `i` does in `W'` is what the piece does in `W`. -/
inductive Reads (W' W : World V ε σ) : Instr → List Instr → Prop where
  | same {i : Instr} : W'.act i = W.act i → W'.test i = W.test i → Reads W' W i [i]
  | global {x a k : InstrId} {b : BlockId} {op op' : ScriptOp} (name : String)
    (ids : List InstrId) : propertyOp? (.script op) = some op' →
    (W'.act ⟨x, .script op, .const (.text name) :: ids.map .value, b⟩ = fun vs _ => do
      let o ← W.act ⟨a, .prim .global, [], b⟩ (W.fill ⟨a, .prim .global, [], b⟩ []) []
      let i : Instr := ⟨x, .script op', (a :: k :: ids).map .value, b⟩
      W.act i (W.fill i (o :: W.const k 0 (.text name) ::
        (List.range ids.length).map fun j => vs (j + 1))) []) →
    Reads W' W ⟨x, .script op, .const (.text name) :: ids.map .value, b⟩
      [⟨a, .prim .global, [], b⟩, literalInstr b k (.text name),
        ⟨x, .script op', (a :: k :: ids).map .value, b⟩]
  | closure {x c p : InstrId} {b : BlockId} (index : Nat) :
    (W'.act ⟨x, .script .closure, [.const (.function index)], b⟩ = fun _ _ =>
      W.act (stubInstr b x "allocFn" 1) (W.fill (stubInstr b x "allocFn" 1) [])
        [W.const c 0 (.function index)]) →
    Reads W' W ⟨x, .script .closure, [.const (.function index)], b⟩
      [⟨c, .prim .code, [.const (.function index)], b⟩, pushInstr b p c, stubInstr b x "allocFn" 1]
  | object {x : InstrId} {b : BlockId} :
    (W'.act ⟨x, .script .object, [], b⟩ = fun _ _ =>
      W.act (stubInstr b x "allocObject" 0) (W.fill (stubInstr b x "allocObject" 0) []) []) →
    Reads W' W ⟨x, .script .object, [], b⟩ [stubInstr b x "allocObject" 0]
  | array {x n p : InstrId} {b : BlockId} (length : Nat) :
    (W'.act ⟨x, .script .array, [raw length], b⟩ = fun _ _ =>
      W.act (stubInstr b x "allocArray" 1) (W.fill (stubInstr b x "allocArray" 1) [])
        [W.const n 0 (.smi length)]) →
    Reads W' W ⟨x, .script .array, [raw length], b⟩
      [literalInstr b n (.smi length), pushInstr b p n, stubInstr b x "allocArray" 1]
  | construct {x f n p₁ p₂ : InstrId} {b : BlockId} (argc : Nat) :
    (W'.act ⟨x, .script .construct, [.value f, raw argc], b⟩ = fun vs args =>
      W.act (stubInstr b x "new" (argc + 2)) (W.fill (stubInstr b x "new" (argc + 2)) [])
        (W.const n 0 (.smi argc) :: vs 0 :: args)) →
    Reads W' W ⟨x, .script .construct, [.value f, raw argc], b⟩
      [literalInstr b n (.smi argc), pushInstr b p₁ f, pushInstr b p₂ n,
        stubInstr b x "new" (argc + 2)]
  | element {x array k v slot p₁ p₂ p₃ p₄ : InstrId} {b : BlockId} (index : Int) :
    (W'.act ⟨x, .script .storeProperty, [.value array, .value k, .value v], b⟩ = fun vs _ =>
      W.act (stubInstr b x "storePropertySlot" 4)
        (W.fill (stubInstr b x "storePropertySlot" 4) [])
        [vs 0, vs 1, W.const slot 0 (.smi index), vs 2]) →
    Reads W' W ⟨x, .script .storeProperty, [.value array, .value k, .value v], b⟩
      [literalInstr b slot (.smi index), pushInstr b p₁ v, pushInstr b p₂ slot, pushInstr b p₃ k,
        pushInstr b p₄ array, stubInstr b x "storePropertySlot" 4]
  | loadProperty {x o k u p₁ p₂ p₃ slot p₄ p₅ p₆ : InstrId} {b : BlockId} (kind : CacheKind) :
    (W'.act ⟨x, .script .loadProperty, [.value o, .value k], b⟩ = fun vs _ => do
      let i : Instr := ⟨slot, .prim .callStub, [.const (.cache kind), raw 3], b⟩
      let found ← W.act i (W.fill i []) [vs 0, vs 1, W.const u 0 (.bool false)]
      W.act (stubInstr b x "loadPropertySlot" 3) (W.fill (stubInstr b x "loadPropertySlot" 3) [])
        [vs 0, vs 1, found]) →
    Reads W' W ⟨x, .script .loadProperty, [.value o, .value k], b⟩
      (lookupCode b kind false o k u p₁ p₂ p₃ slot ++
        [pushInstr b p₄ slot, pushInstr b p₅ k, pushInstr b p₆ o,
          stubInstr b x "loadPropertySlot" 3])
  | storeProperty {x o k v u p₁ p₂ p₃ slot p₄ p₅ p₆ p₇ : InstrId} {b : BlockId}
    (kind : CacheKind) :
    (W'.act ⟨x, .script .storeProperty, [.value o, .value k, .value v], b⟩ = fun vs _ => do
      let i : Instr := ⟨slot, .prim .callStub, [.const (.cache kind), raw 3], b⟩
      let found ← W.act i (W.fill i []) [vs 0, vs 1, W.const u 0 (.bool true)]
      W.act (stubInstr b x "storePropertySlot" 4) (W.fill (stubInstr b x "storePropertySlot" 4) [])
        [vs 0, vs 1, found, vs 2]) →
    Reads W' W ⟨x, .script .storeProperty, [.value o, .value k, .value v], b⟩
      (lookupCode b kind true o k u p₁ p₂ p₃ slot ++
        [pushInstr b p₄ v, pushInstr b p₅ slot, pushInstr b p₆ k, pushInstr b p₇ o,
          stubInstr b x "storePropertySlot" 4])
  | deleteProperty {x o k p₁ p₂ : InstrId} {b : BlockId} :
    (W'.act ⟨x, .script .deleteProperty, [.value o, .value k], b⟩ = fun vs _ =>
      W.act (stubInstr b x "deletePropertySlot" 2)
        (W.fill (stubInstr b x "deletePropertySlot" 2) []) [vs 0, vs 1]) →
    Reads W' W ⟨x, .script .deleteProperty, [.value o, .value k], b⟩
      [pushInstr b p₁ k, pushInstr b p₂ o, stubInstr b x "deletePropertySlot" 2]
  | unary {x v p : InstrId} {b : BlockId} (op : UnaryOp) :
    (W'.act ⟨x, .script .unary, [.const (.unary op), .value v], b⟩ = fun vs _ =>
      W.act (stubInstr b x ("unary/" ++ op.symbol) 1)
        (W.fill (stubInstr b x ("unary/" ++ op.symbol) 1) []) [vs 1]) →
    Reads W' W ⟨x, .script .unary, [.const (.unary op), .value v], b⟩
      [pushInstr b p v, stubInstr b x ("unary/" ++ op.symbol) 1]
  | binary {x l r p₁ p₂ : InstrId} {b : BlockId} (op : BinaryOp) :
    (W'.act ⟨x, .script .binary, [.const (.binary op), .value l, .value r], b⟩ = fun vs _ =>
      W.act (stubInstr b x ("binary/" ++ op.symbol) 2)
        (W.fill (stubInstr b x ("binary/" ++ op.symbol) 2) []) [vs 1, vs 2]) →
    Reads W' W ⟨x, .script .binary, [.const (.binary op), .value l, .value r], b⟩
      [pushInstr b p₁ r, pushInstr b p₂ l, stubInstr b x ("binary/" ++ op.symbol) 2]
  | branch {x v p t : InstrId} {b : BlockId} :
    (W'.test ⟨x, .script .branch, [.value v], b⟩ = fun vs => do
      let value ← W.act (stubInstr b t "coerce/boolean" 1)
        (W.fill (stubInstr b t "coerce/boolean" 1) []) [vs 0]
      let i : Instr := ⟨x, .prim .isTrue, [.value t], b⟩
      W.test i (W.fill i [value])) →
    Reads W' W ⟨x, .script .branch, [.value v], b⟩
      [pushInstr b p v, stubInstr b t "coerce/boolean" 1, ⟨x, .prim .isTrue, [.value t], b⟩]

section

variable {W W' : World V ε σ} {g : Graph} {n k : Nat} {i : Instr} {piece : List Instr}

/-- Whatever a pass makes of an instruction, some world reads it so. -/
theorem exists_reads (h : Step g k i piece) (W : World V ε σ) : ∃ act test, ∀ W' : World V ε σ,
    W'.act i = act → W'.test i = test → Reads W' W i piece := by
  cases h with
  | keep => exact ⟨_, _, fun W' => .same⟩
  | loadGlobal name => exact ⟨_, fun _ => throw W.stuck, fun W' h _ => .global name [] rfl h⟩
  | storeGlobal name => exact ⟨_, fun _ => throw W.stuck, fun W' h _ => .global name [_] rfl h⟩
  | deleteGlobal name => exact ⟨_, fun _ => throw W.stuck, fun W' h _ => .global name [] rfl h⟩
  | closure index => exact ⟨_, fun _ => throw W.stuck, fun W' h _ => .closure index h⟩
  | object => exact ⟨_, fun _ => throw W.stuck, fun W' h _ => .object h⟩
  | array length => exact ⟨_, fun _ => throw W.stuck, fun W' h _ => .array length h⟩
  | construct argc => exact ⟨_, fun _ => throw W.stuck, fun W' h _ => .construct argc h⟩
  | element => exact ⟨_, fun _ => throw W.stuck, fun W' h _ => .element _ h⟩
  | loadProperty kind => exact ⟨_, fun _ => throw W.stuck, fun W' h _ => .loadProperty kind h⟩
  | storeProperty kind => exact ⟨_, fun _ => throw W.stuck, fun W' h _ => .storeProperty kind h⟩
  | deleteProperty => exact ⟨_, fun _ => throw W.stuck, fun W' h _ => .deleteProperty h⟩
  | unary op => exact ⟨_, fun _ => throw W.stuck, fun W' h _ => .unary op h⟩
  | binary op => exact ⟨_, fun _ => throw W.stuck, fun W' h _ => .binary op h⟩
  | branch => exact ⟨fun _ _ => throw W.stuck, _, fun W' _ h => .branch h⟩

theorem Like.setReg {s s' : Progress V} (h : Like n s s') (id : InstrId) (v : V) :
    Like n (s.setReg id v) (s'.setReg id v) := by
  refine { h with regs := fun id' hid' => ?_ }
  simp only [Progress.setReg]
  split
  · rfl
  · exact h.regs id' hid'

/-- Registers with new numbers do not matter. -/
theorem Like.setReg_right {s s' : Progress V} (h : Like n s s') {id : InstrId} (hid : n ≤ id.index)
    (v : V) : Like n s (s'.setReg id v) := by
  refine { h with regs := fun id' hid' => ?_ }
  have hne : id' ≠ id := by
    rintro rfl
    omega
  simp only [Progress.setReg, if_neg hne]
  exact h.regs id' hid'

theorem Like.value {s s' : Progress V} (hs : Like n s s') (hb : Beside W' W) {k : Nat}
    (hreads : ∀ id, i.inputs[k]? = some (.value id) → id.index < n) :
    W'.values s i k = W.values s' i k := by
  unfold World.values
  rw [hb.const]
  split
  · rename_i id hk
    exact hs.regs id (hreads id hk)
  · rfl
  · rfl

theorem Like.values {s s' : Progress V} (hs : Like n s s') (hb : Beside W' W)
    (hreads : ∀ id ∈ i.reads, id.index < n) (hop : i.op ≠ .prim .toPhi) :
    W'.values s i = W.values s' i := by
  funext k
  refine hs.value hb fun id hk => hreads id ?_
  rw [Instr.reads, if_neg hop]
  exact List.mem_filterMap.mpr ⟨.value id, List.mem_of_getElem? hk, rfl⟩

theorem Like.store {s s' : Progress V} (hs : Like n s s')
    (hvalues : W'.values s i = W.values s' i) (v : V) :
    Like n (W'.store s i v) (W.store s' i v) where
  regs id hid := by
    simp only [World.store]
    split
    · exact (hs.setReg i.id v).regs id hid
    · exact hs.regs id hid
  pushed := by simp only [World.store, hs.pushed]
  forwarded := hs.forwarded
  condition := hs.condition
  arithmetic := by simp only [World.store, hvalues, hs.arithmetic]
  passed := hs.passed

/-- An instruction that means the same in both worlds. -/
theorem Like.perform {s s' : Progress V} (hs : Like n s s') (hb : Beside W' W)
    (hact : W'.act i = W.act i) (htest : W'.test i = W.test i)
    (hreads : ∀ id ∈ i.reads, id.index < n) :
    Agrees (Like n) (W'.perform s i) (W.perform s' i) := by
  by_cases hop : i.op = .prim .toPhi
  · have hvalue : W'.values s i 1 = W.values s' i 1 := hs.value hb fun id hk => hreads id (by
      rw [Instr.reads, if_pos hop]
      exact List.mem_filterMap.mpr ⟨.value id, List.mem_of_getElem? (i := 0) (by simpa using hk), rfl⟩)
    simp only [World.perform, hop, hvalue]
    split
    · exact .pure { hs with passed := by rw [hs.passed] }
    · rw [hb.stuck]
      exact .throw _
  have hvalues := hs.values hb hreads hop
  unfold World.perform
  rw [hvalues, hact, htest]
  split
  · exact .pure hs
  · exact .pure hs
  · exact .pure (hs.setReg _ _)
  · exact .pure (hs.setReg _ _)
  · contradiction
  · exact .pure { hs with pushed := by rw [hs.pushed] }
  · exact .pure { hs with forwarded := rfl }
  · rw [hs.forwarded, hb.forwardCall]
    split
    · exact .bind_same fun v => .pure { hs.setReg i.id v with forwarded := rfl }
    · rw [hb.stuck]
      exact .throw _
  · rw [hs.arithmetic, hb.overflows]
    split
    · exact .pure { hs with condition := rfl, arithmetic := rfl }
    · rw [hb.stuck]
      exact .throw _
  · split
    · exact .bind_same fun holds => .pure { hs with condition := rfl }
    · rw [hs.pushed]
      exact .bind_same fun v => .pure (hs.store hvalues v)

/-- Operations of scripts that give a value. -/
def Acts (i : Instr) : Prop := ∃ op : ScriptOp, i.op = .script op ∧ op ≠ .branch

theorem Acts.runCode (hi : Acts i) (W : World V ε σ) (s : Progress V) : W.runCode [i] s = (do
    let v ← W.act i (W.values s i) (s.pushed.take i.taken)
    return .fell ({ s with pushed := s.pushed.drop i.taken }.setReg i.id v)) := by
  obtain ⟨op, hop, hbranch⟩ := hi
  obtain ⟨x, _, ins, b⟩ := i
  obtain rfl : _ = Op.script op := hop
  cases op with
  | branch => contradiction
  | _ => exact bind_assoc _ _ _

@[simp] theorem setReg_self (s : Progress V) (id : InstrId) (v : V) :
    (s.setReg id v).regs id = v := if_pos rfl

@[simp] theorem setReg_pushed (s : Progress V) (id : InstrId) (v : V) :
    (s.setReg id v).pushed = s.pushed := rfl

theorem setReg_ne (s : Progress V) {id id' : InstrId} (h : id' ≠ id) (v : V) :
    (s.setReg id v).regs id' = s.regs id' := if_neg h

theorem Like.result {s s' : Progress V} (hs : Like n s s') (pushed : List V) (id : InstrId) (v : V) :
    Like n ({ s with pushed }.setReg id v) ({ s' with pushed }.setReg id v) := by
  have hlike : Like n { s with pushed } { s' with pushed } := { hs with pushed := rfl }
  exact hlike.setReg id v

/-- Code that ends with the call of a stub. -/
theorem Like.stub {s s' : Progress V} (hs : Like n s s') (args pushed : List V) {x : InstrId}
    {b : BlockId} {name : String} {argc : Nat} (hargs : args.length = argc) :
    Agrees (LikeDeparture n)
      (W.act (stubInstr b x name argc) (W.fill (stubInstr b x name argc) []) args >>=
        fun v => return .fell ({ s with pushed }.setReg x v))
      (W.runCode [stubInstr b x name argc] { s' with pushed := args ++ pushed }) := by
  rw [World.runCode_callStub]
  simp only [← hargs, List.take_left, List.drop_left]
  exact .bind_same fun v => .pure (hs.result pushed x v)

/-- Code that stands for one instruction does what the instruction does. -/
theorem Reads.runs (hb : Beside W' W) (h : Reads W' W i piece) (hfresh : Fresh n i piece)
    (hnodup : (piece.map (·.id)).Nodup) (hreads : ∀ id ∈ i.reads, id.index < n)
    {s s' : Progress V} (hs : Like n s s') :
    Agrees (LikeDeparture n) (W'.runCode [i] s) (W.runCode piece s') := by
  have hnew : ∀ id ∈ piece.dropLast.map (·.id), n ≤ id.index := by
    intro id hid
    obtain ⟨j, hj, rfl⟩ := List.mem_map.mp hid
    exact hfresh.of_mem_dropLast hj
  have hne : ∀ id ∈ i.reads, ∀ id' ∈ piece.dropLast.map (·.id), id ≠ id' := by
    rintro id hid _ hid' rfl
    exact absurd (hreads _ hid) (not_lt.mpr (hnew _ hid'))
  have hregs : ∀ id ∈ i.reads, s.regs id = s'.regs id := fun id hid => hs.regs id (hreads id hid)
  have hpushed := hs.pushed
  cases h with
  | same hact htest =>
    have hperform := hs.perform hb hact htest hreads
    have hvalue (hop : i.op ≠ .prim .toPhi) : W'.values s i 0 = W.values s' i 0 :=
      congrFun (hs.values hb hreads hop) 0
    simp only [World.runCode]
    split
    · rename_i hop
      exact .pure (hvalue (by rw [hop]; simp))
    · rename_i hop
      exact .pure (hvalue (by rw [hop]; simp))
    · rename_i hop
      rw [hb.tailCall, hvalue (by rw [hop]; simp)]
      exact .bind_same fun v => .pure rfl
    · exact hperform.bind fun t t' ht => .pure ht
  | @global x a k b op op' name ids hop h =>
    have hsame : ids.map s.regs = ids.map s'.regs := List.map_congr_left fun id hid =>
      hregs id (by cases op <;> simp [Instr.reads, Input.value?, hid])
    have hold : ∀ id ∈ ids, id ≠ a ∧ id ≠ k := fun id hid => by
      have hmem : id ∈ Instr.reads ⟨x, .script op, .const (.text name) :: ids.map .value, b⟩ := by
        cases op <;> simp [Instr.reads, Input.value?, hid]
      exact ⟨hne id hmem a (by simp), hne id hmem k (by simp)⟩
    have hak : a ≠ k := by
      rintro rfl
      simp at hnodup
    have hacts : op ≠ .branch ∧ op' ≠ .branch := by
      cases op <;> cases hop <;> simp
    have hnone (i : Instr) (hi : i.op = .script op ∨ i.op = .script op') : i.taken = 0 := by
      unfold Instr.taken
      rcases hi with hi | hi <;> rw [hi] <;> cases op <;> cases hop <;> rfl
    rw [Acts.runCode ⟨_, rfl, hacts.1⟩, h, World.runCode_global, bind_assoc]
    refine .bind_same fun o => ?_
    rw [World.runCode_literal, Acts.runCode ⟨_, rfl, hacts.2⟩, hnone _ (.inl rfl), hnone _ (.inr rfl)]
    have hlike := (hs.setReg_right (hnew a (by simp)) o).setReg_right (hnew k (by simp))
      (W.const k 0 (.text name))
    have hknown : (a :: k :: ids).map (((s'.setReg a o).setReg k (W.const k 0 (.text name))).regs) =
        o :: W.const k 0 (.text name) :: ids.map s'.regs := by
      rw [List.map_cons, List.map_cons, setReg_self, setReg_ne _ hak, setReg_self,
        List.map_congr_left fun id hid => ?_]
      rw [setReg_ne _ (hold id hid).2, setReg_ne _ (hold id hid).1]
    have hargs : (List.range ids.length).map (fun j =>
        W'.values s ⟨x, .script op, .const (.text name) :: ids.map .value, b⟩ (j + 1)) =
          ids.map s'.regs := by
      rw [← hsame]
      refine List.ext_getElem (by simp) fun j h₁ h₂ => ?_
      simp [World.values, List.getElem?_eq_getElem (show j < ids.length by simpa using h₁)]
    rw [World.values_fill W _ (a :: k :: ids) [] (by simp), hknown, hargs]
    exact .bind_same fun v => .pure (hlike.setReg x v)
  | @closure x c p b index h =>
    rw [Acts.runCode ⟨_, rfl, by simp⟩, h, World.runCode_code, World.runCode_push, setReg_self,
      hpushed]
    exact (hs.setReg_right (hnew c (by simp)) _).stub [_] _ rfl
  | @object x b h =>
    rw [Acts.runCode ⟨_, rfl, by simp⟩, h, hpushed]
    exact hs.stub [] _ rfl
  | @array x c p b length h =>
    rw [Acts.runCode ⟨_, rfl, by simp⟩, h, World.runCode_literal, World.runCode_push, setReg_self,
      hpushed]
    exact (hs.setReg_right (hnew c (by simp)) _).stub [_] _ rfl
  | @construct x f c p₁ p₂ b argc h =>
    have hf : f ≠ c := hne f (by simp [Instr.reads, Input.value?]) c (by simp)
    rw [Acts.runCode ⟨_, rfl, by simp⟩, h, World.runCode_literal, World.runCode_push,
      World.runCode_push, World.runCode_callStub, hpushed]
    have hvalue : W'.values s ⟨x, .script .construct, [.value f, raw argc], b⟩ 0 = s'.regs f :=
      hregs f (by simp [Instr.reads, Input.value?])
    simp only [setReg_self, setReg_ne s' hf, setReg_pushed, List.take_succ_cons, hvalue]
    have hlike := hs.setReg_right (hnew c (by simp)) (W.const c 0 (.smi argc))
    exact .bind_same fun v => .pure (hlike.result _ x v)
  | @element x array k v slot p₁ p₂ p₃ p₄ b index h =>
    rw [Acts.runCode ⟨_, rfl, by simp⟩, h, hpushed]
    have hslot : ∀ id ∈ [array, k, v], id ≠ slot := fun id hid =>
      hne id (by simpa [Instr.reads, Input.value?] using hid) slot (by simp)
    have ha := hslot array (by simp)
    have hk := hslot k (by simp)
    have hv := hslot v (by simp)
    have hsame : ∀ id ∈ [array, k, v], s.regs id = s'.regs id := fun id hid =>
      hregs id (by simpa [Instr.reads, Input.value?] using hid)
    simp only [World.runCode_literal, World.runCode_push, setReg_self, setReg_ne s' ha,
      setReg_ne s' hk, setReg_ne s' hv, setReg_pushed, World.values, List.getElem?_cons_zero,
      List.getElem?_cons_succ, hsame array (by simp), hsame k (by simp), hsame v (by simp)]
    exact (hs.setReg_right (hnew slot (by simp)) _).stub [_, _, _, _] _ rfl
  | @loadProperty x o k u p₁ p₂ p₃ slot p₄ p₅ p₆ b kind h =>
    rw [Acts.runCode ⟨_, rfl, by simp⟩, h, hpushed]
    have hflag : ∀ id ∈ [o, k], id ≠ u := fun id hid =>
      hne id (by simpa [Instr.reads, Input.value?] using hid) u (by simp)
    have hslot : ∀ id ∈ [o, k], id ≠ slot := fun id hid =>
      hne id (by simpa [Instr.reads, Input.value?] using hid) slot (by simp)
    have hsame : ∀ id ∈ [o, k], s.regs id = s'.regs id := fun id hid =>
      hregs id (by simpa [Instr.reads, Input.value?] using hid)
    have hlike := hs.setReg_right (hnew u (by simp)) (W.const u 0 (.bool false))
    simp only [List.cons_append, List.nil_append, World.runCode_literal, World.runCode_push, setReg_self, setReg_ne s' (hflag o (by simp)),
      setReg_ne s' (hflag k (by simp)), setReg_pushed, World.values, List.getElem?_cons_zero,
      List.getElem?_cons_succ, hsame o (by simp), hsame k (by simp), World.runCode_callStub,
      bind_assoc, List.take_succ_cons, List.take_zero, List.drop_succ_cons, List.drop_zero]
    refine .bind_same fun found => ?_
    have hlike' := hlike.setReg_right (hnew slot (by simp)) found
    simp only [setReg_ne _ (hslot o (by simp)), setReg_ne _ (hslot k (by simp)),
      setReg_ne _ (hflag o (by simp)), setReg_ne _ (hflag k (by simp))]
    exact .bind_same fun v => .pure (hlike'.result s'.pushed x v)
  | @storeProperty x o k v u p₁ p₂ p₃ slot p₄ p₅ p₆ p₇ b kind h =>
    rw [Acts.runCode ⟨_, rfl, by simp⟩, h, hpushed]
    have hflag : ∀ id ∈ [o, k, v], id ≠ u := fun id hid =>
      hne id (by simpa [Instr.reads, Input.value?] using hid) u (by simp)
    have hslot : ∀ id ∈ [o, k, v], id ≠ slot := fun id hid =>
      hne id (by simpa [Instr.reads, Input.value?] using hid) slot (by simp)
    have hsame : ∀ id ∈ [o, k, v], s.regs id = s'.regs id := fun id hid =>
      hregs id (by simpa [Instr.reads, Input.value?] using hid)
    have hlike := hs.setReg_right (hnew u (by simp)) (W.const u 0 (.bool true))
    simp only [List.cons_append, List.nil_append, World.runCode_literal, World.runCode_push,
      setReg_self, setReg_ne s' (hflag o (by simp)), setReg_ne s' (hflag k (by simp)),
      setReg_pushed, World.values, List.getElem?_cons_zero, List.getElem?_cons_succ,
      hsame o (by simp), hsame k (by simp), hsame v (by simp), World.runCode_callStub, bind_assoc,
      List.take_succ_cons, List.take_zero, List.drop_succ_cons, List.drop_zero]
    refine .bind_same fun found => ?_
    have hlike' := hlike.setReg_right (hnew slot (by simp)) found
    simp only [setReg_ne _ (hslot o (by simp)), setReg_ne _ (hslot k (by simp)),
      setReg_ne _ (hslot v (by simp)), setReg_ne _ (hflag o (by simp)),
      setReg_ne _ (hflag k (by simp)), setReg_ne _ (hflag v (by simp))]
    exact .bind_same fun v => .pure (hlike'.result s'.pushed x v)
  | @deleteProperty x o k p₁ p₂ b h =>
    have hsame : ∀ id ∈ [o, k], s.regs id = s'.regs id := fun id hid =>
      hregs id (by simpa [Instr.reads, Input.value?] using hid)
    rw [Acts.runCode ⟨_, rfl, by simp⟩, h, hpushed]
    simp only [World.runCode_push, World.values, List.getElem?_cons_zero, List.getElem?_cons_succ,
      hsame o (by simp), hsame k (by simp)]
    exact hs.stub [_, _] _ rfl
  | @unary x v p b op h =>
    have hsame : s.regs v = s'.regs v := hregs v (by simp [Instr.reads, Input.value?])
    rw [Acts.runCode ⟨_, rfl, by simp⟩, h, hpushed]
    simp only [World.runCode_push, World.values, List.getElem?_cons_zero, List.getElem?_cons_succ,
      hsame]
    exact hs.stub [_] _ rfl
  | @binary x l r p₁ p₂ b op h =>
    have hsame : ∀ id ∈ [l, r], s.regs id = s'.regs id := fun id hid =>
      hregs id (by simpa [Instr.reads, Input.value?, eq_comm] using hid)
    rw [Acts.runCode ⟨_, rfl, by simp⟩, h, hpushed]
    simp only [World.runCode_push, World.values, List.getElem?_cons_zero, List.getElem?_cons_succ,
      hsame l (by simp), hsame r (by simp)]
    exact hs.stub [_, _] _ rfl
  | @branch x v p t b h =>
    have hsame : s.regs v = s'.regs v := hregs v (by simp [Instr.reads, Input.value?])
    rw [World.runCode_test _ _ _ _ _ (.inl rfl), h, World.runCode_push, World.runCode_callStub,
      bind_assoc, hpushed]
    simp only [World.values, List.getElem?_cons_zero, hsame, List.take_succ_cons, List.take_zero,
      List.drop_succ_cons, List.drop_zero]
    refine .bind_same fun value => ?_
    have hlike := hs.setReg_right (hnew t (by simp)) value
    rw [World.runCode_test _ _ _ _ _ (.inr rfl)]
    rw [World.values_fill W _ [t] [] rfl, List.map_singleton, setReg_self]
    refine .bind_same fun holds => .pure ?_
    exact ⟨hlike.regs, rfl, hlike.forwarded, rfl, hlike.arithmetic, hlike.passed⟩

/-! ### Graphs -/

/-- Code and what stands in its place: pieces that are read as the instructions. -/
abbrev Readings (n : Nat) (W' W : World V ε σ) : List Instr → List Instr → Prop :=
  Expansion fun i piece => Reads W' W i piece ∧ Fresh n i piece

theorem Readings.runs {xs ys : List Instr} (hb : Beside W' W) (h : Readings n W' W xs ys)
    (hnodup : (ys.map (·.id)).Nodup) (hreads : ∀ i ∈ xs, ∀ id ∈ i.reads, id.index < n)
    {s s' : Progress V} (hs : Like n s s') :
    Agrees (LikeDeparture n) (W'.runCode xs s) (W.runCode ys s') := by
  induction h generalizing s s' with
  | nil => exact .pure hs
  | @cons i piece rest rest' hr _ ih =>
    rw [List.map_append, List.nodup_append] at hnodup
    rw [← List.singleton_append, World.runCode_append, World.runCode_append]
    refine (hr.1.runs hb hr.2 hnodup.1 (hreads i (by simp)) hs).bind ?_
    rintro (t | v) (t' | v') ht
    · exact ih hnodup.2.1 (fun j hj => hreads j (by simp [hj])) ht
    · exact ht.elim
    · exact ht.elim
    · exact .pure ht

theorem Like.enter {g' : Graph} {s s' : Progress V} (hs : Like n s s') (hb : Beside W' W)
    (hparams : ∀ b, g'.parameters b = g.parameters b) (b : BlockId) :
    Like n (W'.enter g s b) (W.enter g' s' b) where
  regs id hid := by
    simp only [World.enter, hparams, hs.passed, hb.blank]
    split
    · rfl
    · exact hs.regs id hid
  pushed := hs.pushed
  forwarded := hs.forwarded
  condition := rfl
  arithmetic := rfl
  passed := rfl

/-- Graphs with the same edges, whose code runs alike. -/
theorem runAt_agrees {g' : Graph} (hb : Beside W' W)
    (hcode : ∀ b s s', Like n s s' →
      Agrees (LikeDeparture n) (W'.runCode (g.code b) s) (W.runCode (g'.code b) s'))
    (hsuccessors : ∀ b, g'.successors b = g.successors b)
    (hparams : ∀ b, g'.parameters b = g.parameters b) (jumps : Nat) (b : BlockId)
    {s s' : Progress V} (hs : Like n s s') :
    W'.runAt g jumps b s = W.runAt g' jumps b s' := by
  apply Agrees.eq
  induction jumps generalizing b s s' with
  | zero =>
    rw [World.runAt, World.runAt, hb.exhausted]
    exact .throw _
  | succ jumps ih =>
    rw [World.runAt, World.runAt]
    refine (hcode b s s' hs).bind ?_
    rintro (t | v) (t' | v') ht
    · simp only [hsuccessors, ht.condition]
      split
      · exact ih _ (ht.enter hb hparams _)
      · rw [hb.stuck]
        exact .throw _
    · exact ht.elim
    · exact ht.elim
    · exact .pure ht

end

end ScriptEngine.Meaning
