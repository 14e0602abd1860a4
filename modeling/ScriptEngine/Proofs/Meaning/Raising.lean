import ScriptEngine.Proofs.Meaning.Reading

/-!
Worlds of graphs before lowering. Whatever world lowered code is executed in, there is one in which the
graph itself does the same: there an operation of a script is the calls that lowering put in its place,
and a call of a function checks its callee first.
-/

namespace ScriptEngine.State

/-- Runs that agree with the same run agree with each other. -/
theorem Agrees.trans {ε σ α β γ : Type} {R : α → β → Prop} {S : β → γ → Prop} {T : α → γ → Prop} {x : EStateM ε σ α}
    {y : EStateM ε σ β} {z : EStateM ε σ γ} (h : Agrees R x y) (h' : Agrees S y z)
    (hT : ∀ {a b c}, R a b → S b c → T a c) : Agrees T x z := by
  intro s
  have hs := h s
  have hs' := h' s
  cases hx : x s <;> cases hy : y s <;> cases hz : z s <;> rw [hx, hy] at hs <;> rw [hy, hz] at hs'
  all_goals first
    | exact ⟨hT hs.1 hs'.1, hs.2.trans hs'.2⟩
    | exact ⟨hs.1.trans hs'.1, hs.2.trans hs'.2⟩
    | exact hs.elim
    | exact hs'.elim

end ScriptEngine.State

namespace ScriptEngine.Meaning

open Graph Lowering State

variable {V ε σ : Type}

/-! ### Operations of scripts as calls -/

namespace World

variable (W : World V ε σ) (b : BlockId)

/-- A call of a stub, or of an inline cache. -/
def callsStub (x : InstrId) (target : Const) (argc : Nat) (args : List V) : EStateM ε σ V :=
  W.act ⟨x, .prim .callStub, [.const target, raw argc], b⟩
    (W.fill ⟨x, .prim .callStub, [.const target, raw argc], b⟩ []) args

/-- The global object, as an instruction gets it. -/
def readsGlobal (a : InstrId) : EStateM ε σ V :=
  W.act ⟨a, .prim .global, [], b⟩ (W.fill ⟨a, .prim .global, [], b⟩ []) []

/-- A call of a function whose callee is checked before. -/
def callsChecked (x c r : InstrId) (argc : Nat) (callee receiver : V) (args : List V) : EStateM ε σ V := do
  let checked ← W.callsStub b c (.stub "checkFunction") 1 [callee]
  let i := callInstr b x c r argc
  W.act i (W.fill i [checked, receiver]) args

end World

/-- The place in lowered code where the slot of a property is looked up. The key of a cache with a fixed key is
always the same literal. -/
structure SlotSite (g : Graph) (b : BlockId) (update : Bool) where
  kind : CacheKind
  slot : InstrId
  flag : InstrId
  key : InstrId
  /-- The key is pushed two instructions before the call. -/
  keyed : ∃ p : InstrId, slot.index = p.index + 2 ∧ pushInstr b p key ∈ g.code b
  call : ⟨slot, .prim .callStub, [.const (.cache kind), raw 3], b⟩ ∈ g.code b
  literal : literalInstr b flag (.bool update) ∈ g.code b

namespace World

variable (W : World V ε σ) {g : Graph} {b : BlockId}

/-- The slot of a property. -/
def looksUp {update : Bool} (site : SlotSite g b update) (o k : V) : EStateM ε σ V :=
  W.callsStub b site.slot (.cache site.kind) 3 [o, k, W.const site.flag 0 (.bool update)]

/-- A property is read from its slot. -/
def loads (site : SlotSite g b false) (x : InstrId) (o k : V) : EStateM ε σ V := do
  let slot ← W.looksUp site o k
  W.callsStub b x (.stub "loadPropertySlot") 3 [o, k, slot]

/-- A property is written to its slot. -/
def stores (site : SlotSite g b true) (x : InstrId) (o k v : V) : EStateM ε σ V := do
  let slot ← W.looksUp site o k
  W.callsStub b x (.stub "storePropertySlot") 4 [o, k, slot, v]

end World

/-- `Raised g g' W W' i`: what an instruction of `g` does in `W'` is what stands for it in the lowered graph `g'`,
done in `W`. -/
inductive Raised (g g' : Graph) (W W' : World V ε σ) : Instr → Prop where
  | prim {i : Instr} {op : PrimOp} : i.op = .prim op → op ≠ .call → i ∈ g'.code i.block → W'.act i = W.act i →
    W'.test i = W.test i → Raised g g' W W' i
  | call {x f r c : InstrId} {b : BlockId} {argc : Nat} : stubInstr b c "checkFunction" 1 ∈ g'.code b →
    callInstr b x c r argc ∈ g'.code b →
    (∀ vs args, W'.act (callInstr b x f r argc) vs args = W.callsChecked b x c r argc (vs 0) (vs 1) args) →
    Raised g g' W W' (callInstr b x f r argc)
  | loadGlobal {x a k : InstrId} {b : BlockId} (name : String) (site : SlotSite g' b false) : site.key = k →
    ⟨a, .prim .global, [], b⟩ ∈ g'.code b → literalInstr b k (.text name) ∈ g'.code b →
    stubInstr b x "loadPropertySlot" 3 ∈ g'.code b →
    (∀ vs args, W'.act ⟨x, .script .loadGlobal, [.const (.text name)], b⟩ vs args = do
      W.loads site x (← W.readsGlobal b a) (W.const k 0 (.text name))) →
    Raised g g' W W' ⟨x, .script .loadGlobal, [.const (.text name)], b⟩
  | storeGlobal {x a k v : InstrId} {b : BlockId} (name : String) (site : SlotSite g' b true) : site.key = k →
    ⟨a, .prim .global, [], b⟩ ∈ g'.code b → literalInstr b k (.text name) ∈ g'.code b →
    stubInstr b x "storePropertySlot" 4 ∈ g'.code b →
    (∀ vs args, W'.act ⟨x, .script .storeGlobal, [.const (.text name), .value v], b⟩ vs args = do
      W.stores site x (← W.readsGlobal b a) (W.const k 0 (.text name)) (vs 1)) →
    Raised g g' W W' ⟨x, .script .storeGlobal, [.const (.text name), .value v], b⟩
  | deleteGlobal {x a k : InstrId} {b : BlockId} (name : String) :
    ⟨a, .prim .global, [], b⟩ ∈ g'.code b → literalInstr b k (.text name) ∈ g'.code b →
    stubInstr b x "deletePropertySlot" 2 ∈ g'.code b →
    (∀ vs args, W'.act ⟨x, .script .deleteGlobal, [.const (.text name)], b⟩ vs args = do
      W.callsStub b x (.stub "deletePropertySlot") 2 [← W.readsGlobal b a, W.const k 0 (.text name)]) →
    Raised g g' W W' ⟨x, .script .deleteGlobal, [.const (.text name)], b⟩
  | loadProperty {x o k : InstrId} {b : BlockId} (site : SlotSite g' b false) : site.key = k →
    (site.kind = .fixed → FixedKey g' k) →
    stubInstr b x "loadPropertySlot" 3 ∈ g'.code b →
    (∀ vs args, W'.act ⟨x, .script .loadProperty, [.value o, .value k], b⟩ vs args =
      W.loads site x (vs 0) (vs 1)) →
    Raised g g' W W' ⟨x, .script .loadProperty, [.value o, .value k], b⟩
  | storeProperty {x o k v : InstrId} {b : BlockId} (site : SlotSite g' b true) : site.key = k →
    (site.kind = .fixed → FixedKey g' k) →
    stubInstr b x "storePropertySlot" 4 ∈ g'.code b →
    (∀ vs args, W'.act ⟨x, .script .storeProperty, [.value o, .value k, .value v], b⟩ vs args =
      W.stores site x (vs 0) (vs 1) (vs 2)) →
    Raised g g' W W' ⟨x, .script .storeProperty, [.value o, .value k, .value v], b⟩
  | element {x array k v slot : InstrId} {b : BlockId} {index : Int} : ElementStore g b array k index →
    literalInstr b slot (.smi index) ∈ g'.code b → stubInstr b x "storePropertySlot" 4 ∈ g'.code b →
    (∀ vs args, W'.act ⟨x, .script .storeProperty, [.value array, .value k, .value v], b⟩ vs args =
      W.callsStub b x (.stub "storePropertySlot") 4 [vs 0, vs 1, W.const slot 0 (.smi index), vs 2]) →
    Raised g g' W W' ⟨x, .script .storeProperty, [.value array, .value k, .value v], b⟩
  | deleteProperty {x o k : InstrId} {b : BlockId} : stubInstr b x "deletePropertySlot" 2 ∈ g'.code b →
    (∀ vs args, W'.act ⟨x, .script .deleteProperty, [.value o, .value k], b⟩ vs args =
      W.callsStub b x (.stub "deletePropertySlot") 2 [vs 0, vs 1]) →
    Raised g g' W W' ⟨x, .script .deleteProperty, [.value o, .value k], b⟩
  | closure {x c : InstrId} {b : BlockId} (index : Nat) : ⟨c, .prim .code, [.const (.function index)], b⟩ ∈ g'.code b →
    stubInstr b x "allocFn" 1 ∈ g'.code b →
    (∀ vs args, W'.act ⟨x, .script .closure, [.const (.function index)], b⟩ vs args =
      W.callsStub b x (.stub "allocFn") 1 [W.const c 0 (.function index)]) →
    Raised g g' W W' ⟨x, .script .closure, [.const (.function index)], b⟩
  | object {x : InstrId} {b : BlockId} : stubInstr b x "allocObject" 0 ∈ g'.code b →
    (∀ vs args, W'.act ⟨x, .script .object, [], b⟩ vs args = W.callsStub b x (.stub "allocObject") 0 []) →
    Raised g g' W W' ⟨x, .script .object, [], b⟩
  | array {x n : InstrId} {b : BlockId} (length : Nat) : literalInstr b n (.smi length) ∈ g'.code b →
    stubInstr b x "allocArray" 1 ∈ g'.code b →
    (∀ vs args, W'.act ⟨x, .script .array, [raw length], b⟩ vs args =
      W.callsStub b x (.stub "allocArray") 1 [W.const n 0 (.smi length)]) →
    Raised g g' W W' ⟨x, .script .array, [raw length], b⟩
  | construct {x f n : InstrId} {b : BlockId} (argc : Nat) : literalInstr b n (.smi argc) ∈ g'.code b →
    stubInstr b x "new" (argc + 2) ∈ g'.code b →
    (∀ vs args, W'.act ⟨x, .script .construct, [.value f, raw argc], b⟩ vs args =
      W.callsStub b x (.stub "new") (argc + 2) (W.const n 0 (.smi argc) :: vs 0 :: args)) →
    Raised g g' W W' ⟨x, .script .construct, [.value f, raw argc], b⟩
  | unary {x v : InstrId} {b : BlockId} (op : UnaryOp) : stubInstr b x ("unary/" ++ op.symbol) 1 ∈ g'.code b →
    (∀ vs args, W'.act ⟨x, .script .unary, [.const (.unary op), .value v], b⟩ vs args =
      W.callsStub b x (.stub ("unary/" ++ op.symbol)) 1 [vs 1]) →
    Raised g g' W W' ⟨x, .script .unary, [.const (.unary op), .value v], b⟩
  | binary {x l r : InstrId} {b : BlockId} (op : BinaryOp) : stubInstr b x ("binary/" ++ op.symbol) 2 ∈ g'.code b →
    (∀ vs args, W'.act ⟨x, .script .binary, [.const (.binary op), .value l, .value r], b⟩ vs args =
      W.callsStub b x (.stub ("binary/" ++ op.symbol)) 2 [vs 1, vs 2]) →
    Raised g g' W W' ⟨x, .script .binary, [.const (.binary op), .value l, .value r], b⟩
  | branch {x v t : InstrId} {b : BlockId} : stubInstr b t "coerce/boolean" 1 ∈ g'.code b →
    ⟨x, .prim .isTrue, [.value t], b⟩ ∈ g'.code b →
    (∀ vs, W'.test ⟨x, .script .branch, [.value v], b⟩ vs = do
      let value ← W.callsStub b t (.stub "coerce/boolean") 1 [vs 0]
      let i : Instr := ⟨x, .prim .isTrue, [.value t], b⟩
      W.test i (W.fill i [value])) →
    Raised g g' W W' ⟨x, .script .branch, [.value v], b⟩

section

variable {g g' g₁ : Graph} {W W₁ W' : World V ε σ} {i : Instr} {k : Nat} {piece : List Instr}

theorem Raised.congr (h : Raised g g' W W₁ i) (hact : W'.act i = W₁.act i) (htest : W'.test i = W₁.test i) :
    Raised g g' W W' i := by
  cases h with
  | prim hop hne hi ha ht => exact .prim hop hne hi (hact.trans ha) (htest.trans ht)
  | call hc hx h => exact .call hc hx fun vs args => by rw [hact, h]
  | loadGlobal name site hkey ha hk hx h => exact .loadGlobal name site hkey ha hk hx fun vs args => by rw [hact, h]
  | storeGlobal name site hkey ha hk hx h => exact .storeGlobal name site hkey ha hk hx fun vs args => by rw [hact, h]
  | deleteGlobal name ha hk hx h => exact .deleteGlobal name ha hk hx fun vs args => by rw [hact, h]
  | loadProperty site hkey hfixed hx h => exact .loadProperty site hkey hfixed hx fun vs args => by rw [hact, h]
  | storeProperty site hkey hfixed hx h => exact .storeProperty site hkey hfixed hx fun vs args => by rw [hact, h]
  | element helement hslot hx h => exact .element helement hslot hx fun vs args => by rw [hact, h]
  | deleteProperty hx h => exact .deleteProperty hx fun vs args => by rw [hact, h]
  | closure index hc hx h => exact .closure index hc hx fun vs args => by rw [hact, h]
  | object hx h => exact .object hx fun vs args => by rw [hact, h]
  | array length hn hx h => exact .array length hn hx fun vs args => by rw [hact, h]
  | construct argc hn hx h => exact .construct argc hn hx fun vs args => by rw [hact, h]
  | unary op hx h => exact .unary op hx fun vs args => by rw [hact, h]
  | binary op hx h => exact .binary op hx fun vs args => by rw [hact, h]
  | branch ht hx h => exact .branch ht hx fun vs => by rw [htest, h]

/-- A primitive instruction is there until the end, and does the same in both worlds. -/
theorem Raised.of_prim (h : Raised g g' W W₁ i) {op : PrimOp} (hop : i.op = .prim op) (hne : op ≠ .call) :
    i ∈ g'.code i.block ∧ W₁.act i = W.act i ∧ W₁.test i = W.test i := by
  cases h with
  | prim _ _ hi hact htest => exact ⟨hi, hact, htest⟩
  | call => exact absurd (Op.prim.inj hop).symm hne
  | _ => cases hop

theorem Beside.fill (hb : Beside W₁ W) : W₁.fill = W.fill := by
  funext i known k
  unfold World.fill
  rw [hb.const]

/-- A stub that is called in both worlds. -/
theorem Raised.callsStub (hb : Beside W₁ W) {x : InstrId} {b : BlockId} {target : Const} {argc : Nat}
    (h : Raised g g' W W₁ ⟨x, .prim .callStub, [.const target, raw argc], b⟩) (args : List V) :
    W₁.act ⟨x, .prim .callStub, [.const target, raw argc], b⟩
      (W₁.fill ⟨x, .prim .callStub, [.const target, raw argc], b⟩ []) args = W.callsStub b x target argc args := by
  rw [(h.of_prim rfl (by simp)).2.1, hb.fill]
  rfl

theorem Raised.readsGlobal (hb : Beside W₁ W) {a : InstrId} {b : BlockId}
    (h : Raised g g' W W₁ ⟨a, .prim .global, [], b⟩) :
    W₁.act ⟨a, .prim .global, [], b⟩ (W₁.fill ⟨a, .prim .global, [], b⟩ []) [] = W.readsGlobal b a := by
  rw [(h.of_prim rfl (by simp)).2.1, hb.fill]
  rfl

/-- What is known of a graph at some stage, for the operations that are still to be lowered there. -/
structure Stage (k : Nat) (g g' g₁ : Graph) : Prop where
  listed : g.Listed
  literals : ∀ {b key c}, literalInstr b key c ∈ g₁.code b → literalInstr b key c ∈ g'.code b
  elements : k = 3 → ∀ {b array key index}, ElementStore g₁ b array key index → ElementStore g b array key index

theorem Stage.fixedKey (h : Stage k g g' g₁) {key : InstrId} (hkey : FixedKey g₁ key) : FixedKey g' key := by
  obtain ⟨b, c, hc⟩ := hkey
  exact ⟨b, c, h.literals hc⟩

/-- A pass puts a piece of code in the place of an instruction. If the world before the pass does for the
instruction what the piece does, it does what lowered code does in the end. -/
theorem raise (hstage : Stage k g g' g₁) (h : Step g₁ k i piece) (hb : Beside W₁ W)
    (hnew : ∀ j ∈ piece.dropLast, g.instrs.size ≤ j.id.index) (hlater : ∀ j ∈ piece, Raised g g' W W₁ j) :
    ∃ act test, ∀ W' : World V ε σ, W'.act i = act → W'.test i = test →
      Reads W' W₁ i piece ∧ Raised g g' W W' i := by
  have hkeeps : ∀ (j : Instr) {op : PrimOp}, j ∈ piece → j.op = .prim op → op ≠ .call → j ∈ g'.code j.block :=
    fun j _ hj hop hne => ((hlater j hj).of_prim hop hne).1
  cases h with
  | keep => exact ⟨_, _, fun W' hact htest => ⟨.same hact htest, (hlater i (by simp)).congr hact htest⟩⟩
  | @loadGlobal x a k b name =>
    refine ⟨_, fun _ => throw W.stuck, fun W' hact _ => ⟨.global name [] rfl hact, ?_⟩⟩
    cases hlater ⟨x, .script .loadProperty, [.value a, .value k], b⟩ (by simp) with
    | prim hop => cases hop
    | loadProperty site hkey _ hx h =>
      refine .loadGlobal name site hkey (hkeeps ⟨a, .prim .global, [], b⟩ (by simp) rfl (by simp))
        (hkeeps (literalInstr b k (.text name)) (by simp) rfl (by simp)) hx fun vs args => ?_
      rw [hact]
      simp only [(hlater ⟨a, .prim .global, [], b⟩ (by simp)).readsGlobal hb, ← hb.const]
      exact bind_congr fun o => h _ _
  | @storeGlobal x a k v b name =>
    refine ⟨_, fun _ => throw W.stuck, fun W' hact _ => ⟨.global name [v] rfl hact, ?_⟩⟩
    cases hlater ⟨x, .script .storeProperty, [.value a, .value k, .value v], b⟩ (by simp) with
    | prim hop => cases hop
    | storeProperty site hkey _ hx h =>
      refine .storeGlobal name site hkey (hkeeps ⟨a, .prim .global, [], b⟩ (by simp) rfl (by simp))
        (hkeeps (literalInstr b k (.text name)) (by simp) rfl (by simp)) hx fun vs args => ?_
      rw [hact]
      simp only [(hlater ⟨a, .prim .global, [], b⟩ (by simp)).readsGlobal hb, ← hb.const]
      exact bind_congr fun o => h _ _
    | element helement =>
      -- The object would be an array literal of the graph at the start, but its instruction is new.
      obtain ⟨length, -, harray⟩ := helement.array
      have hlt : a.index < g.instrs.size :=
        (Array.getElem?_eq_some_iff.mp (hstage.listed.mem_code_iff.mp harray).2).1
      exact absurd hlt (not_lt.mpr (hnew ⟨a, .prim .global, [], b⟩ (by simp)))
  | @deleteGlobal x a k b name =>
    refine ⟨_, fun _ => throw W.stuck, fun W' hact _ => ⟨.global name [] rfl hact, ?_⟩⟩
    cases hlater ⟨x, .script .deleteProperty, [.value a, .value k], b⟩ (by simp) with
    | prim hop => cases hop
    | deleteProperty hx h =>
      refine .deleteGlobal name (hkeeps ⟨a, .prim .global, [], b⟩ (by simp) rfl (by simp))
        (hkeeps (literalInstr b k (.text name)) (by simp) rfl (by simp)) hx fun vs args => ?_
      rw [hact]
      simp only [(hlater ⟨a, .prim .global, [], b⟩ (by simp)).readsGlobal hb, ← hb.const]
      exact bind_congr fun o => h _ _
  | @closure x c p b index =>
    refine ⟨_, fun _ => throw W.stuck, fun W' hact _ => ⟨.closure index hact, ?_⟩⟩
    have hx := hlater (stubInstr b x "allocFn" 1) (by simp)
    refine .closure index (hkeeps ⟨c, .prim .code, [.const (.function index)], b⟩ (by simp) rfl (by simp))
      (hx.of_prim rfl (by simp)).1 fun vs args => ?_
    rw [hact, ← hb.const]
    exact hx.callsStub hb _
  | @object x b =>
    refine ⟨_, fun _ => throw W.stuck, fun W' hact _ => ⟨.object hact, ?_⟩⟩
    have hx := hlater (stubInstr b x "allocObject" 0) (by simp)
    refine .object (hx.of_prim rfl (by simp)).1 fun vs args => ?_
    rw [hact]
    exact hx.callsStub hb _
  | @array x n p b length =>
    refine ⟨_, fun _ => throw W.stuck, fun W' hact _ => ⟨.array length hact, ?_⟩⟩
    have hx := hlater (stubInstr b x "allocArray" 1) (by simp)
    refine .array length (hkeeps (literalInstr b n (.smi length)) (by simp) rfl (by simp))
      (hx.of_prim rfl (by simp)).1 fun vs args => ?_
    rw [hact, ← hb.const]
    exact hx.callsStub hb _
  | @construct x f n p₁ p₂ b argc =>
    refine ⟨_, fun _ => throw W.stuck, fun W' hact _ => ⟨.construct argc hact, ?_⟩⟩
    have hx := hlater (stubInstr b x "new" (argc + 2)) (by simp)
    refine .construct argc (hkeeps (literalInstr b n (.smi argc)) (by simp) rfl (by simp))
      (hx.of_prim rfl (by simp)).1 fun vs args => ?_
    rw [hact, ← hb.const]
    exact hx.callsStub hb _
  | @element x array k v slot p₁ p₂ p₃ p₄ b index helement =>
    refine ⟨_, fun _ => throw W.stuck, fun W' hact _ => ⟨.element index hact, ?_⟩⟩
    have hx := hlater (stubInstr b x "storePropertySlot" 4) (by simp)
    refine .element (hstage.elements rfl helement) (hkeeps (literalInstr b slot (.smi index)) (by simp) rfl (by simp))
      (hx.of_prim rfl (by simp)).1 fun vs args => ?_
    rw [hact, ← hb.const]
    exact hx.callsStub hb _
  | @loadProperty x o k u p₁ p₂ p₃ slot p₄ p₅ p₆ b kind hfixed hnext =>
    refine ⟨_, fun _ => throw W.stuck, fun W' hact _ => ⟨.loadProperty kind hact, ?_⟩⟩
    have hx := hlater (stubInstr b x "loadPropertySlot" 3) (by simp)
    have hslot := hlater ⟨slot, .prim .callStub, [.const (.cache kind), raw 3], b⟩ (by simp)
    refine .loadProperty ⟨kind, slot, u, k, ⟨p₂, hnext, hkeeps (pushInstr b p₂ k) (by simp) rfl (by simp)⟩,
      (hslot.of_prim rfl (by simp)).1, hkeeps (literalInstr b u (.bool false)) (by simp) rfl (by simp)⟩ rfl (fun h => hstage.fixedKey (hfixed h))
      (hx.of_prim rfl (by simp)).1 fun vs args => ?_
    rw [hact]
    simp only [hslot.callsStub hb, hx.callsStub hb, hb.const]
    rfl
  | @storeProperty x o k v u p₁ p₂ p₃ slot p₄ p₅ p₆ p₇ b kind hfixed hnext =>
    refine ⟨_, fun _ => throw W.stuck, fun W' hact _ => ⟨.storeProperty kind hact, ?_⟩⟩
    have hx := hlater (stubInstr b x "storePropertySlot" 4) (by simp)
    have hslot := hlater ⟨slot, .prim .callStub, [.const (.cache kind), raw 3], b⟩ (by simp)
    refine .storeProperty ⟨kind, slot, u, k, ⟨p₂, hnext, hkeeps (pushInstr b p₂ k) (by simp) rfl (by simp)⟩,
      (hslot.of_prim rfl (by simp)).1, hkeeps (literalInstr b u (.bool true)) (by simp) rfl (by simp)⟩ rfl (fun h => hstage.fixedKey (hfixed h))
      (hx.of_prim rfl (by simp)).1 fun vs args => ?_
    rw [hact]
    simp only [hslot.callsStub hb, hx.callsStub hb, hb.const]
    rfl
  | @deleteProperty x o k p₁ p₂ b =>
    refine ⟨_, fun _ => throw W.stuck, fun W' hact _ => ⟨.deleteProperty hact, ?_⟩⟩
    have hx := hlater (stubInstr b x "deletePropertySlot" 2) (by simp)
    refine .deleteProperty (hx.of_prim rfl (by simp)).1 fun vs args => ?_
    rw [hact]
    exact hx.callsStub hb _
  | @unary x v p b op =>
    refine ⟨_, fun _ => throw W.stuck, fun W' hact _ => ⟨.unary op hact, ?_⟩⟩
    have hx := hlater (stubInstr b x ("unary/" ++ op.symbol) 1) (by simp)
    refine .unary op (hx.of_prim rfl (by simp)).1 fun vs args => ?_
    rw [hact]
    exact hx.callsStub hb _
  | @binary x l r p₁ p₂ b op =>
    refine ⟨_, fun _ => throw W.stuck, fun W' hact _ => ⟨.binary op hact, ?_⟩⟩
    have hx := hlater (stubInstr b x ("binary/" ++ op.symbol) 2) (by simp)
    refine .binary op (hx.of_prim rfl (by simp)).1 fun vs args => ?_
    rw [hact]
    exact hx.callsStub hb _
  | @branch x v p t b =>
    refine ⟨fun _ _ => throw W.stuck, _, fun W' _ htest => ⟨.branch htest, ?_⟩⟩
    have ht := hlater (stubInstr b t "coerce/boolean" 1) (by simp)
    have hx := (hlater ⟨x, .prim .isTrue, [.value t], b⟩ (by simp)).of_prim rfl (by simp)
    refine .branch (ht.of_prim rfl (by simp)).1 hx.1 fun vs => ?_
    rw [htest]
    simp only [ht.callsStub hb, hx.2.2]
    rw [hb.fill]

/-! ### Passes -/

/-- The world before a pass. -/
theorem exists_raise {g₂ : Graph} (hr : Rewrites (Step g₁ k) g₁ g₂) (hl : g.Listed) (hl₁ : g₁.Listed)
    (hsize : g.instrs.size ≤ g₁.instrs.size)
    (helements : k = 3 → ∀ {b array key index}, ElementStore g₁ b array key index → ElementStore g b array key index)
    (hb : Beside W₁ W) (hlater : ∀ b, ∀ j ∈ g₂.code b, Raised g g' W W₁ j) :
    ∃ W', Beside W' W ∧ (∀ b, Readings g₁.instrs.size W' W₁ (g₁.code b) (g₂.code b)) ∧
      ∀ b, ∀ i ∈ g₁.code b, Raised g g' W W' i := by
  choose pieceOf hpieces hcode using fun b => (hr.expansion b).exists_pieces (hl₁.code_nodup b)
  have hmem : ∀ {b i j}, i ∈ g₁.code b → j ∈ pieceOf b i → j ∈ g₂.code b := fun {b i j} hi hj => by
    rw [hcode b]
    exact List.mem_flatMap.mpr ⟨i, hi, hj⟩
  have hstage : Stage k g g' g₁ := by
    refine ⟨hl, fun {b key c} hi => ?_, helements⟩
    have hself : pieceOf b (literalInstr b key c) = [literalInstr b key c] :=
      (hpieces b _ hi).1.eq_of_prim rfl
    exact ((hlater b _ (hmem hi (by rw [hself]; simp))).of_prim rfl (by simp)).1
  have hacts : ∀ i, ∃ act test, ∀ W' : World V ε σ, W'.act i = act → W'.test i = test → ∀ b, i ∈ g₁.code b →
      Reads W' W₁ i (pieceOf b i) ∧ Raised g g' W W' i := by
    intro i
    by_cases hi : i ∈ g₁.code i.block
    · obtain ⟨hstep, hfresh⟩ := hpieces i.block i hi
      obtain ⟨act, test, h⟩ := raise hstage hstep hb (fun j hj => hsize.trans (hfresh.of_mem_dropLast hj))
        fun j hj => hlater _ j (hmem hi hj)
      exact ⟨act, test, fun W' ha ht b hib => hl₁.block_of_mem hib ▸ h W' ha ht⟩
    · refine ⟨W₁.act i, W₁.test i, fun W' _ _ b hib => absurd hib ?_⟩
      rwa [← hl₁.block_of_mem hib]
  choose act test h using hacts
  let W' : World V ε σ := { W with act, test }
  refine ⟨W', ⟨rfl, rfl, rfl, rfl, rfl, rfl, rfl⟩, fun b => ?_, fun b i hi => (h i W' rfl rfl b hi).2⟩
  rw [hcode b]
  exact .of_pieces fun i hi => ⟨(h i W' rfl rfl b hi).1, (hpieces b i hi).2⟩

end

/-! ### The last pass -/

namespace World

variable (W : World V ε σ) (s : Progress V) {b : BlockId}

theorem runCode_call (x f r : InstrId) (argc : Nat) (rest : List Instr) :
    W.runCode (callInstr b x f r argc :: rest) s = (do
      let v ← W.act (callInstr b x f r argc) (W.fill (callInstr b x f r argc) [s.regs f, s.regs r]) (s.pushed.take argc)
      W.runCode rest ({ s with pushed := s.pushed.drop argc }.setReg x v)) := by
  have hvalues := W.values_fill s (i := callInstr b x f r argc) [f, r] [.raw argc] rfl
  rw [List.map_cons, List.map_singleton] at hvalues
  rw [← hvalues]
  exact bind_assoc _ _ _

/-- Pushes only push. -/
theorem runCode_pushes {area : List Instr} (harea : ∀ j ∈ area, j.IsPush) (rest : List Instr) :
    W.runCode (area ++ rest) s =
      W.runCode rest { s with pushed := (area.map fun j => W.values s j 0).reverse ++ s.pushed } := by
  induction area generalizing s with
  | nil => rfl
  | cons j area ih =>
    obtain ⟨hop, v, hins⟩ := harea j (by simp)
    obtain ⟨p, _, _, b⟩ := j
    obtain rfl : _ = Op.prim .push := hop
    obtain rfl : _ = [Input.value v] := hins
    rw [List.cons_append, runCode_push, ih _ fun j hj => harea j (by simp [hj])]
    simp only [List.map_cons, List.reverse_cons, List.append_assoc, List.singleton_append]
    rfl

end World

section

variable {W W' : World V ε σ} {n : Nat} {b : BlockId} {xs ys : List Instr}

theorem LikeDeparture.bind {x y : EStateM ε σ (Departure V)} {rest rest' : List Instr}
    (h : Agrees (LikeDeparture n) x y) (hrest : ∀ s s', Like n s s' →
      Agrees (LikeDeparture n) (W'.runCode rest s) (W.runCode rest' s')) :
    Agrees (LikeDeparture n)
      (x >>= fun
        | .fell s => W'.runCode rest s
        | .returned v => return .returned v)
      (y >>= fun
        | .fell s => W.runCode rest' s
        | .returned v => return .returned v) := by
  refine h.bind ?_
  rintro (t | v) (t' | v') ht
  · exact hrest t t' ht
  · exact ht.elim
  · exact ht.elim
  · exact .pure ht

/-- Code that means the same in both worlds. -/
theorem runs_same (hb : Beside W' W) (hsame : ∀ i ∈ xs, W'.act i = W.act i ∧ W'.test i = W.test i)
    (hreads : ∀ i ∈ xs, ∀ id ∈ i.reads, id.index < n) {s s' : Progress V} (hs : Like n s s') :
    Agrees (LikeDeparture n) (W'.runCode xs s) (W.runCode xs s') := by
  induction xs generalizing s s' with
  | nil => exact .pure hs
  | cons i rest ih =>
    rw [← List.singleton_append, World.runCode_append, World.runCode_append]
    have hi := hsame i (by simp)
    exact LikeDeparture.bind
      ((Reads.same hi.1 hi.2).runs hb (.self n i) (by simp) (hreads i (by simp)) hs)
      fun t t' ht => ih (fun j hj => hsame j (by simp [hj])) (fun j hj => hreads j (by simp [hj])) ht

/-- A world that checks callees where lowered code does it before their arguments. -/
structure Checks (g' : Graph) (W' W : World V ε σ) : Prop extends Beside W' W where
  others : ∀ i : Instr, i.op ≠ .prim .call → W'.act i = W.act i
  tests : W'.test = W.test
  calls : ∀ {b x f r c argc}, callInstr b x c r argc ∈ g'.code b → ∀ vs args,
    W'.act (callInstr b x f r argc) vs args = W.callsChecked b x c r argc (vs 0) (vs 1) args

theorem runs_framed {g' : Graph} (hc : Checks g' W' W) (h : Framed n b xs ys) (hys : ∀ j ∈ ys, j ∈ g'.code b)
    (hreads : ∀ i ∈ xs, ∀ id ∈ i.reads, id.index < n) {s s' : Progress V} (hs : Like n s s') :
    Agrees (LikeDeparture n) (W'.runCode xs s) (W.runCode ys s') := by
  have hb := hc.toBeside
  induction h generalizing s s' with
  | nil => exact .pure hs
  | @simple i rest rest' hsimple _ _ ih =>
    have hop : i.op ≠ .prim .call := fun hop => by
      rw [hop] at hsimple
      cases hsimple
    rw [← List.singleton_append, ← List.singleton_append (l := rest'), World.runCode_append, World.runCode_append]
    exact LikeDeparture.bind (runs_same hb (by simpa [hc.tests] using hc.others i hop)
      (fun j hj => hreads j (by simp at hj; simp [hj])) hs)
      fun t t' ht => ih (fun j hj => hys j (by simp [hj])) (fun j hj => hreads j (by simp [hj])) ht
  | @stub area rest rest' i o harea hop _ _ _ ih =>
    have hothers : ∀ j ∈ area ++ [i], j.op ≠ .prim .call := by
      intro j hj
      rcases List.mem_append.mp hj with hj | hj
      · rcases harea j hj with ⟨hpush, -⟩ | ⟨hlit, -⟩
        · simp [hpush]
        · simp [hlit]
      · rw [List.mem_singleton.mp hj, hop]
        simp
    have hcut : ∀ tail, area ++ i :: tail = (area ++ [i]) ++ tail := by simp
    rw [World.runCode_open, hcut rest, hcut rest', W'.runCode_append (area ++ [i]), W.runCode_append (area ++ [i])]
    exact LikeDeparture.bind (runs_same hb (fun j hj => ⟨hc.others j (hothers j hj), by rw [hc.tests]⟩)
      (fun j hj => hreads j (by simp at hj; rcases hj with hj | hj <;> simp [hj])) hs)
      fun t t' ht => ih (fun j hj => hys j (by simp [hj])) (fun j hj => hreads j (by simp [hj])) ht
  | @call area rest rest' x f r o₁ p c o₂ harea _ _ hnew _ _ ih =>
    have hread : ∀ id ∈ [f, r], s.regs id = s'.regs id := fun id hid => hs.regs id
      (hreads (callInstr b x f r (pushCount area)) (by simp) id (mem_reads_call.mpr (by simpa using hid)))
    have hcall : callInstr b x c r (pushCount area) ∈ g'.code b := hys _ (by simp)
    rw [World.runCode_pushes _ _ harea, World.runCode_call, World.runCode_open, World.runCode_push,
      World.runCode_callStub, hc.calls hcall]
    have hgiven : ∀ v, (area.map fun j => W'.values s j 0) = area.map fun j => W.values (s'.setReg c v) j 0 := by
      intro v
      refine List.map_congr_left fun j hj => ?_
      obtain ⟨hop, id, hins⟩ := harea j hj
      have hid : id.index < n := hreads j (by simp [hj]) id (by simp [Instr.reads, hop, hins, Input.value?])
      simp only [World.values, hins, List.getElem?_cons_zero]
      rw [setReg_ne s' (by rintro rfl; omega), hs.regs id hid]
    have hlength : (area.map fun j => W'.values s j 0).reverse.length = pushCount area := by
      rw [List.length_reverse, List.length_map, pushCount, List.countP_eq_length.mpr fun j hj => by simp [(harea j hj).1]]
    have hr : r ≠ c := by
      rintro rfl
      have := hreads (callInstr b x f r (pushCount area)) (by simp) r (mem_reads_call.mpr (.inr rfl))
      omega
    unfold World.callsChecked
    rw [bind_assoc]
    simp only [List.take_succ_cons, List.take_zero, List.drop_succ_cons, List.drop_zero]
    rw [show W'.fill (callInstr b x f r (pushCount area)) [s.regs f, s.regs r] 0 = s'.regs f from hread f (by simp),
      show W'.fill (callInstr b x f r (pushCount area)) [s.regs f, s.regs r] 1 = s'.regs r from hread r (by simp)]
    refine .bind_same fun v => ?_
    change Agrees _ _ (W.runCode _ (s'.setReg c v))
    rw [World.runCode_open, World.runCode_pushes _ _ harea, World.runCode_call, ← hgiven v, setReg_pushed]
    simp only [setReg_self, setReg_ne s' hr, ← hs.pushed, List.take_left' hlength, List.drop_left' hlength]
    refine .bind_same fun w => ih (fun j hj => hys j (by simp [hj])) (fun j hj => hreads j (by simp [hj])) ?_
    exact (hs.setReg_right hnew v).result s.pushed x w

end

section

variable {g g' g₁ : Graph} {W W₁ : World V ε σ} {k : Nat}

/-- A world that checks callees. -/
theorem exists_checks (hl : g'.Listed) (W : World V ε σ) : ∃ W', Checks g' W' W := by
  have hacts : ∀ i : Instr, ∃ act, (i.op ≠ .prim .call → act = W.act i) ∧
      ∀ {b x f r c argc}, i = callInstr b x f r argc → callInstr b x c r argc ∈ g'.code b → ∀ vs args,
        act vs args = W.callsChecked b x c r argc (vs 0) (vs 1) args := by
    intro i
    by_cases h : ∃ b x f r c argc, i = callInstr b x f r argc ∧ callInstr b x c r argc ∈ g'.code b
    · obtain ⟨b, x, f, r, c, argc, rfl, hc⟩ := h
      refine ⟨fun vs args => W.callsChecked b x c r argc (vs 0) (vs 1) args, fun hop => absurd rfl hop, ?_⟩
      intro _ _ _ _ c' argc' heq hc' vs args
      cases heq
      -- Only one call in lowered code has this number, so its callee is checked once.
      cases (hl.eq_of_id hc hc' rfl).1
      rfl
    · refine ⟨W.act i, fun _ => rfl, fun heq hc => absurd ⟨_, _, _, _, _, _, heq, hc⟩ h⟩
  choose act hothers hcalls using hacts
  exact ⟨{ W with act }, ⟨rfl, rfl, rfl, rfl, rfl, rfl, rfl⟩, hothers, rfl, fun hc => hcalls _ rfl hc⟩

/-- The world before the last pass. -/
theorem exists_raise_frames (hf : Changes (Frames g₁) g₁ g') (hs : Staged 6 g₁) (W : World V ε σ) :
    ∃ W', Beside W' W ∧ (∀ b, ∀ i ∈ g₁.code b, Raised g g' W W' i) ∧ ∀ b s s', Like g₁.instrs.size s s' →
      Agrees (LikeDeparture g₁.instrs.size) (W'.runCode (g₁.code b) s) (W.runCode (g'.code b) s') := by
  obtain ⟨W', hc⟩ := exists_checks hf.listed W
  have hb := hc.toBeside
  refine ⟨W', hb, fun b i hi => ?_, fun b s s' hlike => ?_⟩
  · have hblock := hs.ssa.listed.block_of_mem hi
    obtain ⟨heads, body, body', tail, hform, hframed, hcode⟩ := hf.code b (lt_of_mem_code hi)
    have hkept : i.op ≠ .prim .call → i ∈ g'.code i.block := by
      intro hop
      rw [hblock, hcode]
      rw [hform.code] at hi
      simp only [List.mem_append] at hi ⊢
      exact hi.imp_right (.imp_left fun hi => hframed.keeps hi hop)
    obtain ⟨op, hop⟩ : ∃ op : PrimOp, i.op = .prim op := by
      have hprim := hs.isPrim hi
      cases hop : i.op with
      | prim op => exact ⟨op, rfl⟩
      | script op => simp [hop, Op.isPrim] at hprim
    by_cases hcall : op = .call
    · rw [hcall] at hop
      have hbody : i ∈ body := by
        rw [hform.code] at hi
        simp only [List.mem_append] at hi
        rcases hi with hi | hi | hi
        · have := (hform.heads i hi).1
          simp [hop] at this
        · exact hi
        · exact absurd hop (hform.ends.op_ne_call i hi)
      obtain ⟨x, f, r, c, argc, rfl, hcheck, hx⟩ := hframed.checks hbody hop
      have hmem : ∀ j ∈ body', j ∈ g'.code b := fun j hj => by simp [hcode, hj]
      exact .call (hmem _ hcheck) (hmem _ hx) (hc.calls (hmem _ hx))
    · have hne : i.op ≠ .prim .call := by simpa [hop] using hcall
      exact .prim hop hcall (hkept hne) (hc.others i hne) (by rw [hc.tests])
  · have hreads : ∀ i ∈ g₁.code b, ∀ id ∈ i.reads, id.index < g₁.instrs.size := fun i hi id hid =>
      hs.reads_lt b hi hid
    by_cases hlt : b.index < g₁.blocks.size
    · obtain ⟨heads, body, body', tail, hform, hframed, hcode⟩ := hf.code b hlt
      have hplain : ∀ code : List Instr, (∀ i ∈ code, i.op ≠ .prim .call) →
          ∀ i ∈ code, W'.act i = W.act i ∧ W'.test i = W.test i :=
        fun code hcode i hi => ⟨hc.others i (hcode i hi), by rw [hc.tests]⟩
      rw [hform.code] at hreads
      rw [hform.code, hcode, W'.runCode_append heads, W.runCode_append heads]
      refine LikeDeparture.bind (runs_same hb (hplain heads fun i hi => by simp [(hform.heads i hi).1])
        (fun i hi => hreads i (by simp [hi])) hlike) fun t t' ht => ?_
      rw [W'.runCode_append body, W.runCode_append body']
      refine LikeDeparture.bind (runs_framed hc hframed (fun j hj => by simp [hcode, hj])
        (fun i hi => hreads i (by simp [hi])) ht) fun u u' hu => ?_
      exact runs_same hb (hplain tail hform.ends.op_ne_call) (fun i hi => hreads i (by simp [hi])) hu
    · rw [code_eq_nil hlt, code_eq_nil (by rwa [hf.blocks])]
      exact .pure hlike

/-! ### The whole of lowering -/

theorem LikeDeparture.trans {n n' : Nat} {d d' d'' : Departure V} (h : LikeDeparture n d d')
    (h' : LikeDeparture n' d' d'') (hle : n ≤ n') : LikeDeparture n d d'' := by
  rcases d with s | v <;> rcases d' with s' | v' <;> rcases d'' with s'' | v''
  case fell.fell.fell =>
    exact ⟨fun id hid => (h.regs id hid).trans (h'.regs id (by omega)), h.pushed.trans h'.pushed,
      h.forwarded.trans h'.forwarded, h.condition.trans h'.condition, h.arithmetic.trans h'.arithmetic,
      h.passed.trans h'.passed⟩
  case returned.returned.returned => exact Eq.trans h h'
  all_goals first | exact h.elim | exact h'.elim

/-- The world of a graph, from a world for what the first passes made of it. -/
theorem raise_passed (h : Passed g k g₁) (hg : g.Sketch []) (hb : Beside W₁ W)
    (hlater : ∀ b, ∀ i ∈ g₁.code b, Raised g g' W W₁ i) :
    ∃ W', Beside W' W ∧ (∀ b, ∀ i ∈ g.code b, Raised g g' W W' i) ∧ ∀ b s s', Like g.instrs.size s s' →
      Agrees (LikeDeparture g.instrs.size) (W'.runCode (g.code b) s) (W₁.runCode (g₁.code b) s') := by
  induction h generalizing W₁ with
  | start =>
    exact ⟨W₁, hb, hlater, fun b s s' hs => runs_same ⟨rfl, rfl, rfl, rfl, rfl, rfl, rfl⟩ (fun _ _ => ⟨rfl, rfl⟩)
      (fun i hi id hid => (Staged.of_sketch hg).reads_lt b hi hid) hs⟩
  | @next k g₁ g₂ hp hr ih =>
    have hs := hp.staged hg
    obtain ⟨W₂, hb₂, hreadings, hraised⟩ := exists_raise hr (Staged.of_sketch hg).ssa.listed hs.ssa.listed hp.le
      (fun hk => fun {b array key index} => hp.elements (by omega)) hb hlater
    obtain ⟨W', hb', hraised', hruns⟩ := ih hb₂ hraised
    refine ⟨W', hb', hraised', fun b s s' hlike => ?_⟩
    have hbeside : Beside W₂ W₁ := ⟨hb₂.const.trans hb.const.symm, hb₂.overflows.trans hb.overflows.symm,
      hb₂.forwardCall.trans hb.forwardCall.symm, hb₂.tailCall.trans hb.tailCall.symm,
      hb₂.blank.trans hb.blank.symm, hb₂.stuck.trans hb.stuck.symm, hb₂.exhausted.trans hb.exhausted.symm⟩
    have hpass := (hreadings b).runs hbeside (hr.listed.code_nodup b)
      (fun i hi id hid => hs.reads_lt b hi hid) (s := s') ⟨fun _ _ => rfl, rfl, rfl, rfl, rfl, rfl⟩
    exact (hruns b s s' hlike).trans hpass fun hd hd' => hd.trans hd' hp.le

/-- Whatever world the lowered graph is executed in, the graph itself does the same in a world in which its
operations are what lowering put in their place; and its results are where they were. -/
theorem exists_raise_lower (hg : g.Sketch []) (W : World V ε σ) :
    ∃ W', Beside W' W ∧ (∀ b, ∀ i ∈ g.code b, Raised g (lower g).graph W W' i) ∧
      (∀ b s s', Like g.instrs.size s s' → Agrees (LikeDeparture g.instrs.size) (W'.runCode (g.code b) s)
        (W.runCode ((lower g).graph.code b) s')) ∧
      ∀ jumps, W'.run g jumps = W.run (lower g).graph jumps := by
  obtain ⟨g₆, hp, hf, -⟩ := lower_ok hg
  have hs := hp.staged hg
  obtain ⟨W₆, hb₆, hraised₆, hruns₆⟩ := exists_raise_frames (g := g) hf hs W
  obtain ⟨W', hb, hraised, hruns⟩ := raise_passed hp hg hb₆ hraised₆
  have hcode : ∀ b s s', Like g.instrs.size s s' → Agrees (LikeDeparture g.instrs.size) (W'.runCode (g.code b) s)
      (W.runCode ((lower g).graph.code b) s') := fun b s s' hlike =>
    (hruns b s s' hlike).trans (hruns₆ b s' s' ⟨fun _ _ => rfl, rfl, rfl, rfl, rfl, rfl⟩)
      fun hd hd' => hd.trans hd' hp.le
  refine ⟨W', hb, hraised, hcode, fun jumps => ?_⟩
  have hstart : Like g.instrs.size (V := V) { regs := fun _ => W'.blank } { regs := fun _ => W.blank } :=
    ⟨fun _ _ => hb.blank, rfl, rfl, rfl, rfl, rfl⟩
  exact runAt_agrees hb hcode (lower_successors hg) (lower_parameters hg) jumps ⟨0⟩ hstart

end

end ScriptEngine.Meaning
