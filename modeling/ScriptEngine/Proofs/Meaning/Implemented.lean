import ScriptEngine.Proofs.Graph.Constructed
import ScriptEngine.Proofs.Heap.Elements
import ScriptEngine.Proofs.Meaning.Gaps
import ScriptEngine.Proofs.Meaning.Inputs
import ScriptEngine.Proofs.Meaning.Raising

/-!
Lowering preserves meaning. To somebody who knows which request each stub implements, the lowered graph asks
the world what the graph itself asks, with the same operands and in the same order, and returns the same
value. An inline cache answers with a slot, which means something only to the stub that gets it next.
-/

namespace ScriptEngine.Meaning

open Graph Lowering State

variable {V σ : Type}

/-! ### What stubs implement -/

/-- What stands in a register of lowered code. -/
inductive Datum (V : Type) where
  | value (v : V)
  | constant (c : Const)
  /-- What an inline cache answers for an object and a key. -/
  | slot (object key : Datum V) (update : Bool)
  /-- A callee that was checked. -/
  | callee (f : Datum V)
  | truth (holds : Bool)

/-- The value of a script that a register holds, if it holds one. -/
def Datum.value? (A : Answerer V σ) : Datum V → Option V
  | value v => some v
  | constant c => if c.isValue then some (A.constant c) else none
  | _ => none

/-- Globals are properties of an object. -/
def Request.onGlobal (A : Answerer V σ) (global : V) : Request V → Request V
  | loadGlobal name => loadProperty global (A.constant (.text name))
  | storeGlobal name value => storeProperty global (A.constant (.text name)) value
  | deleteGlobal name => deleteProperty global (A.constant (.text name))
  | r => r

def Answerer.onGlobal (A : Answerer V σ) (global : V) : Answerer V σ :=
  { A with answer := fun r => A.answer (r.onGlobal A global) }

/-- An instruction of a graph that stores into an array literal of its block, at an index inside of it. -/
def StoresElement (g : Graph) (x : InstrId) (index : Int) : Prop :=
  ∃ b array k v, ⟨x, .script .storeProperty, [.value array, .value k, .value v], b⟩ ∈ g.code b ∧
    ElementStore g b array k index

open Classical in
/-- The request that a stub implements. A slot has to come from an inline cache that was asked for the same property,
unless the store is one into an array literal of the graph. -/
noncomputable def implemented? (A : Answerer V σ) (functions : Nat → Syntax.Function) (g : Graph)
    (x : InstrId) (name : String) (args : List (Datum V)) : Option (Request V) :=
  match name, args with
  | "allocObject", [] => some .object
  | "allocArray", [.constant (.smi n)] => some (.array n.toNat)
  | "allocFn", [.constant (.function index)] => some (.closure (functions index))
  | "new", .constant (.smi n) :: f :: args =>
    if n = args.length then do return .construct (← f.value? A) (← args.mapM (·.value? A)) else none
  | "loadPropertySlot", [o, k, slot] =>
    if slot = .slot o k false then do return .loadProperty (← o.value? A) (← k.value? A) else none
  | "storePropertySlot", [o, k, slot, v] =>
    if slot = .slot o k true ∨ ∃ n, slot = .constant (.smi n) ∧ StoresElement g x n then
      do return .storeProperty (← o.value? A) (← k.value? A) (← v.value? A)
    else none
  | "deletePropertySlot", [o, k] => do return .deleteProperty (← o.value? A) (← k.value? A)
  | name, [v] => do
    let op ← [UnaryOp.neg, .not].find? fun op => "unary/" ++ op.symbol == name
    return .unary op (← v.value? A)
  | name, [l, r] => do
    let op ← BinaryOp.all.find? fun op => "binary/" ++ op.symbol == name
    return .binary op (← l.value? A) (← r.value? A)
  | _, _ => none

/-- Ask the world. -/
def asks (A : Answerer V σ) : Option (Request V) → EStateM Unit σ (Datum V)
  | some r => fun s =>
    let (value, s) := A.answer r s
    .ok (.value value) s
  | none => throw ()

/-- A call of a stub or of an inline cache. -/
noncomputable def understand (A : Answerer V σ) (functions : Nat → Syntax.Function) (g : Graph)
    (x : InstrId) (target : Const) (args : List (Datum V)) : EStateM Unit σ (Datum V) :=
  match target, args with
  | .cache _, [o, k, .constant (.bool update)] => return .slot o k update
  | .stub "checkFunction", [f] => return .callee f
  | .stub "coerce/boolean", [v] =>
    match v.value? A with
    | some v => fun s =>
      let (holds, s) := A.truth v s
      .ok (.truth holds) s
    | none => throw ()
  | .stub name, args => asks A (implemented? A functions g x name args)
  | _, _ => throw ()

/-- The world of somebody who knows what stubs implement, for the lowered code of a graph. -/
noncomputable def implementing (A : Answerer V σ) (functions : Nat → Syntax.Function) (global : V)
    (inputs : Inputs V) (g : Graph) : World (Datum V) Unit σ where
  const _ _ c := .constant c
  act i x args :=
    match i.op, x 0 with
    | .prim .global, _ => return .value global
    | .prim .receiver, _ => return .value inputs.receiver
    | .prim .arg, _ => return .value (A.argument inputs (i.rawAt 0).toNat)
    | .prim .trap, _ => asks A (some .trap)
    | .prim .call, .callee f =>
      asks A (do return .call (← f.value? A) (← (x 1).value? A) (← args.mapM (·.value? A)))
    | .prim .callStub, .constant target => understand A functions g i.id target args
    | _, _ => throw ()
  test i x :=
    match i.op, x 0 with
    | .prim .isTrue, .truth holds => return holds
    | _, _ => throw ()
  overflows _ _ := false
  forwardCall _ _ _ _ := throw ()
  tailCall _ := throw ()
  blank := .constant .undefined
  stuck := ()
  exhausted := ()

section

variable {A : Answerer V σ} {functions : Nat → Syntax.Function} {global : V} {inputs : Inputs V}
  {g : Graph} {b : BlockId} {x : InstrId}

theorem implemented_unary (op : UnaryOp) (v : Datum V) : implemented? A functions g x ("unary/" ++ op.symbol) [v] =
    (do return .unary op (← v.value? A)) := by
  cases op <;> rfl

theorem implemented_binary (op : BinaryOp) (l r : Datum V) :
    implemented? A functions g x ("binary/" ++ op.symbol) [l, r] =
      (do return .binary op (← l.value? A) (← r.value? A)) := by
  cases op <;> rfl

/-! ### Calls of stubs -/

theorem calls_cache (kind : CacheKind) (o k : Datum V) (update : Bool) :
    (implementing A functions global inputs g).callsStub b x (.cache kind) 3 [o, k, .constant (.bool update)] =
      return .slot o k update := rfl

variable (global inputs) in
theorem calls_request {name : String} (hcheck : name ≠ "checkFunction") (hcoerce : name ≠ "coerce/boolean") (argc : Nat)
    (args : List (Datum V)) :
    (implementing A functions global inputs g).callsStub b x (.stub name) argc args =
      asks A (implemented? A functions g x name args) := by
  change understand A functions g x (.stub name) args = _
  unfold understand
  split <;> simp_all

theorem calls_coercion {d : Datum V} {v : V} (hd : d.value? A = some v) (s : σ) :
    (implementing A functions global inputs g).callsStub b x (.stub "coerce/boolean") 1 [d] s =
      .ok (.truth (A.truth v s).1) (A.truth v s).2 := by
  change understand A functions g x (.stub "coerce/boolean") [d] s = _
  unfold understand
  simp only [hd]

theorem readsGlobal_eq : (implementing A functions global inputs g).readsGlobal b x = return .value global := rfl

variable (global inputs) in
theorem loads_eq (site : SlotSite (lower g).graph b false) (o k : Datum V) :
    (implementing A functions global inputs g).loads site x o k =
      asks A (do return .loadProperty (← o.value? A) (← k.value? A)) := by
  unfold World.loads World.looksUp
  rw [show (implementing A functions global inputs g).const site.flag 0 (.bool false) = .constant (.bool false) from rfl,
    calls_cache, pure_bind, calls_request global inputs (by decide) (by decide)]
  exact congrArg (asks A) (if_pos rfl)

variable (global inputs) in
theorem stores_eq (site : SlotSite (lower g).graph b true) (o k v : Datum V) :
    (implementing A functions global inputs g).stores site x o k v =
      asks A (do return .storeProperty (← o.value? A) (← k.value? A) (← v.value? A)) := by
  unfold World.stores World.looksUp
  rw [show (implementing A functions global inputs g).const site.flag 0 (.bool true) = .constant (.bool true) from rfl,
    calls_cache, pure_bind, calls_request global inputs (by decide) (by decide)]
  exact congrArg (asks A) (if_pos (.inl rfl))

variable (global inputs) in
theorem callsChecked_eq (c r : InstrId) (argc : Nat) (f receiver : Datum V) (args : List (Datum V)) :
    (implementing A functions global inputs g).callsChecked b x c r argc f receiver args =
      asks A (do return .call (← f.value? A) (← receiver.value? A) (← args.mapM (·.value? A))) := rfl

/-! ### Execution of the graph and of what stands for it -/

/-- The results of a graph. -/
def Results (g : Graph) (id : InstrId) : Prop := ∃ b, ∃ d ∈ g.code b, d.Defines id

/-- An execution of lowered code is where one of the graph is, with some parameters still to be received. -/
structure Shows (A : Answerer V σ) (g : Graph) (waiting : List InstrId) (s : Activity V σ) (ρ : Progress (Datum V)) : Prop
    where
  regs : ∀ id, Results g id → id ∉ waiting → (ρ.regs id).value? A = some (s.regs id)
  received : ∀ id ∈ waiting, ∀ v, s.received.lookup id = some v → (ρ.regs id).value? A = some v
  pushed : ρ.pushed.map (·.value? A) = s.pushed.map some
  condition : ρ.condition = s.condition
  passed : ρ.passed.map (fun p => (p.1, p.2.value? A)) = s.passed.map fun p => (p.1, some p.2)

variable {waiting : List InstrId} {s s₁ : Activity V σ} {ρ : Progress (Datum V)} {W : World (Datum V) Unit σ}
  {i : Instr}

theorem answer_onGlobal (r : Request V) (world : σ) :
    (A.onGlobal global).answer r world = A.answer (r.onGlobal A global) world := rfl

/-- An answer that is kept in a register. -/
theorem Shows.answered (h : Shows A g [] s ρ) {r : Request V} (hout : i.op.info.output = true ∨ ¬ Results g i.id) :
    ∃ v, asks A (some (r.onGlobal A global)) s.world = .ok (.value v) (ask (A.onGlobal global) s i.id r i.taken).world ∧
      Shows A g [] (Meaning.ask (A.onGlobal global) s i.id r i.taken) (W.store ρ i (.value v)) := by
  refine ⟨(A.answer (r.onGlobal A global) s.world).1, rfl, fun id hid _ => ?_, by simp, ?_, h.condition, h.passed⟩
  · by_cases hx : id = i.id
    · subst hx
      simp only [World.store, hout.resolve_right (not_not_intro hid), if_true, setReg_self, Meaning.ask,
        Activity.setReg, answer_onGlobal]
      rfl
    · have hkept : (W.store ρ i (.value (A.answer (r.onGlobal A global) s.world).1)).regs id = ρ.regs id := by
        simp only [World.store]
        split
        · exact setReg_ne _ hx _
        · rfl
      rw [hkept, h.regs id hid (by simp)]
      simp only [Meaning.ask, Activity.setReg, if_neg hx]
  · simp only [World.store, Meaning.ask, List.map_drop, h.pushed]

theorem Shows.setReg (h : Shows A g [] s ρ) (id : InstrId) {d : Datum V} {v : V} (hd : d.value? A = some v) :
    Shows A g [] (s.setReg id v) (ρ.setReg id d) := by
  refine ⟨fun id' hid' _ => ?_, by simp, h.pushed, h.condition, h.passed⟩
  simp only [Progress.setReg, Activity.setReg]
  split
  · exact hd
  · exact h.regs id' hid' (by simp)

theorem Shows.take_values (h : Shows A g [] s ρ) (n : Nat) :
    (ρ.pushed.take n).mapM (·.value? A) = some (s.pushed.take n) := by
  have hsome : ∀ {ds : List (Datum V)} {vs : List V}, ds.map (·.value? A) = vs.map some →
      ds.mapM (·.value? A) = some vs := by
    intro ds vs heq
    induction ds generalizing vs with
    | nil =>
      cases vs with
      | nil => rfl
      | cons v vs => cases heq
    | cons d ds ih =>
      cases vs with
      | nil => cases heq
      | cons v vs =>
        rw [List.map_cons, List.map_cons] at heq
        obtain ⟨hd, hrest⟩ := List.cons.inj heq
        rw [List.mapM_cons, hd, ih hrest]
        rfl
  exact hsome (by rw [List.map_take, h.pushed, List.map_take])

/-- An operation that asks for something. -/
theorem Shows.asked (h : Shows A g [] s ρ) {r : Request V} {d? : Option (Request V)}
    (hop : (∃ op, i.op = .script op ∧ op ≠ .branch) ∨ i.op = .prim .call ∨ i.op = .prim .trap)
    (hout : i.op.info.output = true ∨ ¬ Results g i.id)
    (hact : W.act i (W.values ρ i) (ρ.pushed.take i.taken) = asks A d?) (hd : d? = some (r.onGlobal A global)) :
    ∃ ρ₁, W.perform ρ i s.world = .ok ρ₁ (Meaning.ask (A.onGlobal global) s i.id r i.taken).world ∧
      Shows A g [] (Meaning.ask (A.onGlobal global) s i.id r i.taken) ρ₁ := by
  obtain ⟨v, hasks, hshows⟩ := Shows.answered h hout
  refine ⟨_, ?_, hshows⟩
  have hperform : W.perform ρ i = (do return W.store ρ i (← W.act i (W.values ρ i) (ρ.pushed.take i.taken))) := by
    unfold World.perform
    rcases hop with ⟨op, hop, hne⟩ | hop | hop
    · rw [hop]
      cases op with
      | branch => exact absurd rfl hne
      | _ => rfl
    · rw [hop]
      rfl
    · rw [hop]
      rfl
  rw [hperform, hact, hd, bind_of_ok hasks]
  rfl

theorem Shows.regs_values (h : Shows A g [] s ρ) (hreads : ∀ id ∈ i.reads, Results g id) {k : Nat} {id : InstrId}
    (hk : i.inputs[k]? = some (.value id)) (hop : i.op ≠ .prim .toPhi) :
    (W.values ρ i k).value? A = some (s.regs id) := by
  have hread : id ∈ i.reads := by
    rw [Instr.reads, if_neg hop]
    exact List.mem_filterMap.mpr ⟨_, List.mem_of_getElem? hk, rfl⟩
  simp only [World.values, hk]
  exact h.regs id (hreads id hread) (by simp)

theorem Shows.push (h : Shows A g [] s ρ) {d : Datum V} {v : V} (hd : d.value? A = some v) :
    Shows A g [] { s with pushed := v :: s.pushed } { ρ with pushed := d :: ρ.pushed } :=
  ⟨h.regs, h.received, by simp [hd, h.pushed], h.condition, h.passed⟩

theorem Shows.pass (h : Shows A g [] s ρ) (phi : InstrId) {d : Datum V} {v : V} (hd : d.value? A = some v) :
    Shows A g [] { s with passed := (phi, v) :: s.passed } { ρ with passed := (phi, d) :: ρ.passed } :=
  ⟨h.regs, h.received, h.pushed, h.condition, by simp [hd, h.passed]⟩

/-- A result that takes no request. -/
theorem Shows.kept (h : Shows A g [] s ρ) {d : Datum V} {v : V} (hd : d.value? A = some v) (hout : i.op.info.output = true)
    (htaken : i.taken = 0) : Shows A g [] (s.setReg i.id v) (W.store ρ i d) := by
  have hset := h.setReg i.id hd
  refine ⟨?_, by simp, ?_, hset.condition, hset.passed⟩
  · simpa only [World.store, if_pos hout] using hset.regs
  · change (ρ.pushed.drop i.taken).map _ = _
    rw [htaken]
    exact h.pushed

/-- A primitive instruction that is neither a parameter nor a call. -/
theorem Shows.perform_prim (h : Shows A g [] s ρ) {x : InstrId} {op : PrimOp} {ins : List Input}
    (hact : W.act ⟨x, .prim op, ins, b⟩ = (implementing A functions global inputs g).act ⟨x, .prim op, ins, b⟩)
    (hb : Beside W (implementing A functions global inputs g)) (hshape : Shaped ⟨x, .prim op, ins, b⟩) (hphi : op ≠ .phi)
    (hcall : op ≠ .call) (hout : op.info.output = true ∨ ¬ Results g x)
    (hreads : ∀ id ∈ (⟨x, .prim op, ins, b⟩ : Instr).reads, Results g id)
    (hrun : Meaning.perform (A.onGlobal global) functions inputs s x (.prim op) ins = some s₁) :
    ∃ ρ₁, W.perform ρ ⟨x, .prim op, ins, b⟩ s.world = .ok ρ₁ s₁.world ∧ Shows A g [] s₁ ρ₁ := by
  cases hshape with
  | phi hi => exact absurd (Op.prim.inj hi.1) hphi
  | push hi =>
    obtain ⟨hop, v, hins⟩ := hi
    cases hop
    cases hins
    cases hrun
    exact ⟨_, rfl, h.push (h.regs_values hreads (k := 0) rfl (by simp))⟩
  | simple hs =>
    cases hs with
    | @literal c hc =>
      cases hrun
      refine ⟨_, rfl, h.setReg x ?_⟩
      change (W.const x 0 c).value? A = _
      rw [hb.const]
      exact if_pos hc
    | code index => cases hrun
    | global => cases hrun
    | receiver =>
      cases hrun
      refine ⟨_, ?_, h.kept (W := W) (i := ⟨x, .prim .receiver, [], b⟩) (d := .value inputs.receiver) rfl rfl rfl⟩
      change (do return W.store ρ _ (← W.act _ _ _) : EStateM Unit σ _) _ = _
      rw [hact]
      rfl
    | arg index =>
      cases hrun
      refine ⟨_, ?_, h.kept (W := W) (i := ⟨x, .prim .arg, [raw index], b⟩) (d := .value (A.argument inputs index)) rfl
        rfl rfl⟩
      change (do return W.store ρ _ (← W.act _ _ _) : EStateM Unit σ _) _ = _
      rw [hact]
      rfl
    | trap =>
      cases hrun
      exact h.asked (i := ⟨x, .prim .trap, [], b⟩) (r := .trap) (.inr (.inr rfl)) hout (congrFun (congrFun hact _) _) rfl
  | takes ht =>
    cases ht with
    | call => exact absurd rfl hcall
    | stub => cases hrun
    | cache => cases hrun
  | pass hi =>
    obtain ⟨hop, phi, v, hins⟩ := hi
    cases hop
    cases hins
    cases hrun
    refine ⟨_, rfl, h.pass phi ?_⟩
    have hread : v ∈ (⟨x, .prim .toPhi, [.value phi, .value v], b⟩ : Instr).reads := by
      simp [Instr.reads, Input.value?]
    exact h.regs v (hreads v hread) (by simp)
  | exit hop hins =>
    cases hins
    rcases hop with hop | hop | hop <;> cases hop <;> cases hrun

/-- A call that takes pushed arguments. -/
theorem Shows.asked_taking (h : Shows A g [] s ρ) {n : Nat} (request : List V → Request V) {d? : Option (Request V)}
    (hop : i.op = .script .construct ∨ i.op = .prim .call) (htaken : i.taken = n)
    (hact : W.act i (W.values ρ i) (ρ.pushed.take n) = asks A d?)
    (hd : n ≤ s.pushed.length → d? = some ((request (s.pushed.take n)).onGlobal A global))
    (hrun : ((if n ≤ s.pushed.length then some (request (s.pushed.take n), n) else none).map fun (r, taken) =>
      Meaning.ask (A.onGlobal global) s i.id r taken) = some s₁) :
    ∃ ρ₁, W.perform ρ i s.world = .ok ρ₁ s₁.world ∧ Shows A g [] s₁ ρ₁ := by
  subst htaken
  split at hrun
  · rename_i hle
    cases hrun
    refine h.asked ?_ (.inl ?_) hact (hd hle)
    · rcases hop with hop | hop
      · exact .inl ⟨_, hop, by simp⟩
      · exact .inr (.inl hop)
    · rcases hop with hop | hop <;> rw [hop] <;> rfl
  · cases hrun

/-- The instruction with the number of a result is its definition. -/
theorem output_of_results (hl : g.Listed) (hi : i ∈ g.code b) (h : Results g i.id) : i.op.info.output = true := by
  obtain ⟨b', d, hd, hid, hout⟩ := h
  have hget := (hl.mem_code_iff.mp hd).2
  rw [hid, (hl.mem_code_iff.mp hi).2] at hget
  cases hget
  exact hout

/-- An instruction that is no parameter. -/
theorem Shows.perform (h : Shows A g [] s ρ) (hl : g.Listed) (hi : i ∈ g.code b)
    (hraised : Raised g (lower g).graph (implementing A functions global inputs g) W i)
    (hb : Beside W (implementing A functions global inputs g)) (hshape : Shaped i) (hphi : i.op ≠ .prim .phi)
    (hreads : ∀ id ∈ i.reads, Results g id)
    (hrun : Meaning.perform (A.onGlobal global) functions inputs s i.id i.op i.inputs = some s₁) :
    ∃ ρ₁, W.perform ρ i s.world = .ok ρ₁ s₁.world ∧ Shows A g [] s₁ ρ₁ := by
  have hval : ∀ id, ∀ {k}, i.inputs[k]? = some (.value id) → i.op ≠ .prim .toPhi →
      (W.values ρ i k).value? A = some (s.regs id) := fun id _ hk hop => h.regs_values hreads hk hop
  cases hraised with
  | @prim _ op hop hne hmem hact htest =>
    obtain ⟨x, op', ins, b'⟩ := i
    cases hop
    refine h.perform_prim hact hb hshape (fun h => hphi (h ▸ rfl)) hne ?_ hreads hrun
    rw [or_iff_not_imp_right, not_not]
    exact fun hx => output_of_results hl hi hx
  | @call x f r c b argc hc hx hact =>
    refine h.asked_taking (.call (s.regs f) (s.regs r)) (.inr rfl) rfl
      ((hact _ _).trans (callsChecked_eq global inputs c r argc _ _ _)) (fun _ => ?_) hrun
    rw [hval f rfl (by simp), hval r rfl (by simp), h.take_values]
    rfl
  | @loadGlobal x a k b name site _ ha hk hx hact =>
    cases hrun
    exact h.asked (r := .loadGlobal name) (.inl ⟨_, rfl, by simp⟩) (.inl rfl)
      ((hact _ _).trans (loads_eq global inputs site (.value global) (.constant (.text name)))) rfl
  | @storeGlobal x a k v b name site _ ha hk hx hact =>
    cases hrun
    refine h.asked (r := .storeGlobal name (s.regs v)) (.inl ⟨_, rfl, by simp⟩) (.inl rfl)
      ((hact _ _).trans (stores_eq global inputs site (.value global) (.constant (.text name)) _)) ?_
    rw [hval v rfl (by simp)]
    rfl
  | @deleteGlobal x a k b name ha hk hx hact =>
    cases hrun
    have hcall : (implementing A functions global inputs g).callsStub b x (.stub "deletePropertySlot") 2
        [.value global, .constant (.text name)] = asks A (some (.deleteProperty global (A.constant (.text name)))) :=
      calls_request global inputs (by decide) (by decide) 2 _
    exact h.asked (r := .deleteGlobal name) (.inl ⟨_, rfl, by simp⟩) (.inl rfl) ((hact _ _).trans hcall) rfl
  | @loadProperty x o k b site _ _ hx hact =>
    cases hrun
    refine h.asked (r := .loadProperty (s.regs o) (s.regs k)) (.inl ⟨_, rfl, by simp⟩) (.inl rfl)
      ((hact _ _).trans (loads_eq global inputs site _ _)) ?_
    rw [hval o rfl (by simp), hval k rfl (by simp)]
    rfl
  | @storeProperty x o k v b site _ _ hx hact =>
    cases hrun
    refine h.asked (r := .storeProperty (s.regs o) (s.regs k) (s.regs v)) (.inl ⟨_, rfl, by simp⟩) (.inl rfl)
      ((hact _ _).trans (stores_eq global inputs site _ _ _)) ?_
    rw [hval o rfl (by simp), hval k rfl (by simp), hval v rfl (by simp)]
    rfl
  | @element x array k v slot b' index helement hslot hx hact =>
    cases hrun
    refine h.asked (r := .storeProperty (s.regs array) (s.regs k) (s.regs v)) (.inl ⟨_, rfl, by simp⟩) (.inl rfl)
      ((hact _ _).trans (calls_request global inputs (by decide) (by decide) _ _)) ?_
    have hblock : b' = b := hl.block_of_mem hi
    subst hblock
    refine (if_pos (.inr ⟨index, rfl, b', array, k, v, hi, helement⟩)).trans ?_
    rw [hval array rfl (by simp), hval k rfl (by simp), hval v rfl (by simp)]
    rfl
  | @deleteProperty x o k b hx hact =>
    cases hrun
    refine h.asked (r := .deleteProperty (s.regs o) (s.regs k)) (.inl ⟨_, rfl, by simp⟩) (.inl rfl)
      ((hact _ _).trans (calls_request global inputs (by decide) (by decide) _ _)) ?_
    change (do return Request.deleteProperty (← (W.values ρ _ 0).value? A) (← (W.values ρ _ 1).value? A)) = _
    rw [hval o rfl (by simp), hval k rfl (by simp)]
    rfl
  | @closure x c b index hc hx hact =>
    cases hrun
    exact h.asked (r := .closure (functions index)) (.inl ⟨_, rfl, by simp⟩) (.inl rfl)
      ((hact _ _).trans (calls_request global inputs (by decide) (by decide) _ _)) rfl
  | @object x b hx hact =>
    cases hrun
    exact h.asked (r := .object) (.inl ⟨_, rfl, by simp⟩) (.inl rfl)
      ((hact _ _).trans (calls_request global inputs (by decide) (by decide) _ _)) rfl
  | @array x n b length hn hx hact =>
    cases hrun
    exact h.asked (r := .array length) (.inl ⟨_, rfl, by simp⟩) (.inl rfl)
      ((hact _ _).trans (calls_request global inputs (by decide) (by decide) _ _)) rfl
  | @construct x f n b argc hn hx hact =>
    refine h.asked_taking (.construct (s.regs f)) (.inl rfl) rfl
      ((hact _ _).trans (calls_request global inputs (by decide) (by decide) _ _)) (fun hle => ?_) hrun
    have hlength : (argc : Int) = (ρ.pushed.take argc).length := by
      have hpushed := congrArg List.length h.pushed
      rw [List.length_map, List.length_map] at hpushed
      rw [List.length_take, hpushed]
      exact congrArg Nat.cast (min_eq_left hle).symm
    refine (if_pos hlength).trans ?_
    rw [hval f rfl (by simp), h.take_values]
    rfl
  | @unary x v b op hx hact =>
    cases hrun
    refine h.asked (r := .unary op (s.regs v)) (.inl ⟨_, rfl, by simp⟩) (.inl rfl)
      ((hact _ _).trans (calls_request global inputs (by cases op <;> decide) (by cases op <;> decide) _ _)) ?_
    rw [implemented_unary, hval v rfl (by simp)]
    rfl
  | @binary x l r b op hx hact =>
    cases hrun
    refine h.asked (r := .binary op (s.regs l) (s.regs r)) (.inl ⟨_, rfl, by simp⟩) (.inl rfl)
      ((hact _ _).trans (calls_request global inputs (by cases op <;> decide) (by cases op <;> decide) _ _)) ?_
    rw [implemented_binary, hval l rfl (by simp), hval r rfl (by simp)]
    rfl
  | @branch x v t b ht hx htest =>
    cases hrun
    refine ⟨{ ρ with condition := some (A.truth (s.regs v) s.world).1 }, ?_, h.regs, h.received, h.pushed, rfl,
      h.passed⟩
    change (do return { ρ with condition := some (← W.test _ _) } : EStateM Unit σ _) _ = _
    have hcoerce : (implementing A functions global inputs g).callsStub b t (.stub "coerce/boolean") 1 [W.values ρ _ 0]
        s.world = .ok (.truth (A.truth (s.regs v) s.world).1) (A.truth (s.regs v) s.world).2 :=
      calls_coercion (h.regs_values hreads (k := 0) rfl (by simp)) s.world
    rw [htest]
    exact bind_of_ok (bind_of_ok hcoerce)

/-- A parameter receives what was passed. -/
theorem Shows.receive {id : InstrId} (h : Shows A g (id :: waiting) s ρ) {v : V} (hv : s.received.lookup id = some v) :
    Shows A g waiting (s.setReg id v) ρ := by
  refine ⟨fun id' hid' hnot => ?_, fun id' hid' => h.received id' (by simp [hid']), h.pushed, h.condition, h.passed⟩
  by_cases heq : id' = id
  · subst heq
    rw [h.received id' (by simp) v hv]
    exact congrArg some (if_pos rfl).symm
  · rw [h.regs id' hid' (by simp [heq, hnot])]
    exact congrArg some (if_neg heq).symm

/-- Executions of a block end alike. -/
inductive EndsAlike (A : Answerer V σ) (g : Graph) : Ending V × Activity V σ → Departure (Datum V) → Prop where
  | fell {s : Activity V σ} {ρ : Progress (Datum V)} : Shows A g [] s ρ → EndsAlike A g (.fell, s) (.fell ρ)
  | returned {s : Activity V σ} {v : V} {d : Datum V} : d.value? A = some v →
    EndsAlike A g (.returned v, s) (.returned d)

theorem Shows.runCode (hl : g.Listed)
    (hraised : ∀ i ∈ g.code b, Raised g (lower g).graph (implementing A functions global inputs g) W i)
    (hb : Beside W (implementing A functions global inputs g)) (hshape : ∀ i ∈ g.code b, Shaped i)
    (hreads : ∀ i ∈ g.code b, ∀ id ∈ i.reads, Results g id) {code : List Instr} (hcode : ∀ i ∈ code, i ∈ g.code b)
    (hphis : code.Pairwise fun i j => j.op = .prim .phi → i.op = .prim .phi)
    (h : Shows A g ((code.filter (·.op == .prim .phi)).map (·.id)) s ρ) {e : Ending V}
    (hrun : runBody (A.onGlobal global) functions g inputs (code.map (·.id)) s = some (e, s₁)) :
    ∃ d, W.runCode code ρ s.world = .ok d s₁.world ∧ EndsAlike A g (e, s₁) d := by
  induction code generalizing s ρ with
  | nil =>
    cases hrun
    exact ⟨_, rfl, .fell h⟩
  | cons i rest ih =>
    have hi := hcode i (by simp)
    have hget := (hl.mem_code_iff.mp hi).2
    have hrest : ∀ j ∈ rest, j ∈ g.code b := fun j hj => hcode j (by simp [hj])
    obtain ⟨hfirst, hphis⟩ := List.pairwise_cons.mp hphis
    by_cases hphi : i.op = .prim .phi
    · have hins : i.inputs = [] := (hshape i hi).inputs_of_phi hphi
      rw [List.map_cons, runBody_cons _ _ _ _ _ _ _ hget (by simp [hphi]), Option.bind_eq_some_iff] at hrun
      obtain ⟨s', hrecv, hrun⟩ := hrun
      rw [hphi, hins] at hrecv
      obtain ⟨v, hv, rfl⟩ := Option.map_eq_some_iff.mp hrecv
      rw [List.filter_cons_of_pos (by simp [hphi])] at h
      obtain ⟨d, hd, hends⟩ := ih hrest hphis (h.receive hv) hrun
      refine ⟨d, ?_, hends⟩
      rw [World.runCode_cons rest (by simp [hphi]) (by simp [hphi]) (by simp [hphi])]
      refine (bind_of_ok ?_).trans hd
      unfold World.perform
      rw [hphi]
      rfl
    -- After an instruction that is no parameter, none is waiting.
    have hnone : ∀ j ∈ rest, j.op ≠ .prim .phi := fun j hj hop => hphi (hfirst j hj hop)
    have hwaiting : ((i :: rest).filter (·.op == .prim .phi)).map (·.id) = [] := by
      rw [List.map_eq_nil_iff, List.filter_eq_nil_iff]
      intro j hj
      rcases List.mem_cons.mp hj with rfl | hj
      · simpa using hphi
      · simpa using hnone j hj
    rw [hwaiting] at h
    by_cases hret : i.op = .prim .ret
    · obtain ⟨v, hins⟩ := (hshape i hi).inputs_of_ret hret
      rw [List.map_cons, runBody, hget] at hrun
      simp only [Option.bind_eq_bind, Option.bind_some, hret, hins, Option.some.injEq, Prod.mk.injEq] at hrun
      obtain ⟨rfl, rfl⟩ := hrun
      refine ⟨.returned (W.values ρ i 0), ?_, .returned (h.regs_values (hreads i hi) (by simp [hins]) (by simp [hret]))⟩
      unfold World.runCode
      rw [hret]
      rfl
    · rw [List.map_cons, runBody_cons _ _ _ _ _ _ _ hget hret, Option.bind_eq_some_iff] at hrun
      obtain ⟨s', hperform, hrun⟩ := hrun
      obtain ⟨ρ', hstep, h'⟩ := h.perform hl hi (hraised i hi) hb (hshape i hi) hphi (hreads i hi) hperform
      have hnil : (rest.filter (·.op == .prim .phi)).map (·.id) = [] := by
        rw [List.map_eq_nil_iff, List.filter_eq_nil_iff]
        intro j hj
        simpa using hnone j hj
      obtain ⟨d, hd, hends⟩ := ih hrest hphis (by rwa [hnil]) hrun
      refine ⟨d, ?_, hends⟩
      rw [World.runCode_cons rest hret (hshape i hi).no_cache_exit.1 (hshape i hi).no_cache_exit.2]
      exact (bind_of_ok hstep).trans hd

/-! ### Blocks and graphs -/

theorem Shows.like {ρ' : Progress (Datum V)} (h : Shows A g [] s ρ) (hlike : Like g.instrs.size ρ ρ') (hl : g.Listed) :
    Shows A g [] s ρ' := by
  refine ⟨fun id hid hnot => ?_, by simp, hlike.pushed ▸ h.pushed, hlike.condition ▸ h.condition,
    hlike.passed ▸ h.passed⟩
  have hlt : id.index < g.instrs.size := by
    obtain ⟨b', d, hd, rfl, -⟩ := hid
    exact (Array.getElem?_eq_some_iff.mp (hl.mem_code_iff.mp hd).2).1
  rw [← hlike.regs id hlt, h.regs id hid hnot]

/-- A lowered block does what the block does. All results are where they were. -/
theorem Shows.runBlock (hg : g.Sketch []) (h : Shows A g (g.parameters b) s ρ) {e : Ending V}
    (hrun : runBody (A.onGlobal global) functions g inputs (g.listing b) s = some (e, s₁)) :
    ∃ d, (implementing A functions global inputs g).runCode ((lower g).graph.code b) ρ s.world = .ok d s₁.world ∧
      EndsAlike A g (e, s₁) d := by
  obtain ⟨W, hb, hraised, hcode, -⟩ := exists_raise_lower hg (implementing A functions global inputs g)
  have hform : ∀ i ∈ g.code b, Shaped i ∧ (g.code b).Pairwise fun i j => j.op = .prim .phi → i.op = .prim .phi := by
    intro i hi
    obtain ⟨heads, body, tail, hform⟩ := hg.closed b (lt_of_mem_code hi) (by simp)
    exact ⟨hform.shaped hi, hform.pairwise_phi⟩
  have hphis : (g.code b).Pairwise fun i j => j.op = .prim .phi → i.op = .prim .phi := by
    cases hempty : g.code b with
    | nil => exact .nil
    | cons i rest => exact hempty ▸ (hform i (by simp [hempty])).2
  have hreads : ∀ i ∈ g.code b, ∀ id ∈ i.reads, Results g id := by
    intro i hi id hid
    obtain ⟨before, after, hsplit⟩ := List.append_of_mem hi
    rcases hg.defined b before i ⟨after, by simp [hsplit]⟩ id hid with ⟨d, hd, hdef⟩ | ⟨b', -, -, d, hd, hdef⟩
    · exact ⟨b, d, by simp [hsplit, hd], hdef⟩
    · exact ⟨b', d, hd, hdef⟩
  obtain ⟨d, hd, hends⟩ := Shows.runCode hg.listed (hraised b) hb (fun i hi => (hform i hi).1) hreads (fun i hi => hi)
    hphis h (by rwa [hg.listed.code_ids])
  have hagrees := hcode b ρ ρ ⟨fun _ _ => rfl, rfl, rfl, rfl, rfl, rfl⟩ s.world
  rw [hd] at hagrees
  cases hlow : (implementing A functions global inputs g).runCode ((lower g).graph.code b) ρ s.world with
  | error e t => rw [hlow] at hagrees; exact hagrees.elim
  | ok d' t =>
    rw [hlow] at hagrees
    obtain ⟨hlike, rfl⟩ := hagrees
    refine ⟨d', rfl, ?_⟩
    cases hends with
    | @fell s' ρ' hshows =>
      cases d' with
      | fell ρ'' => exact .fell (hshows.like hlike hg.listed)
      | returned v => exact hlike.elim
    | returned hv =>
      cases d' with
      | fell ρ'' => exact hlike.elim
      | returned v => exact .returned (by rwa [← (show _ = v from hlike)])

theorem lookup_map {α β : Type} (f : α → β) (id : InstrId) (l : List (InstrId × α)) :
    (l.map fun p => (p.1, f p.2)).lookup id = (l.lookup id).map f := by
  induction l with
  | nil => rfl
  | cons p rest ih =>
    rw [List.map_cons, List.lookup_cons, List.lookup_cons]
    split
    · rfl
    · exact ih

theorem Shows.enter (hg : g.Sketch []) (h : Shows A g [] s ρ) (target : BlockId) : Shows A g (g.parameters target) s.enter
    ((implementing A functions global inputs g).enter (lower g).graph ρ target) := by
  have hpassed : ∀ id, (ρ.passed.lookup id).map (·.value? A) = (s.passed.lookup id).map some := fun id => by
    rw [← lookup_map, ← lookup_map, h.passed]
  refine ⟨fun id hid hnot => ?_, fun id hid v hv => ?_, h.pushed, rfl, rfl⟩
  · rw [← lower_parameters hg target] at hnot
    simp only [World.enter, if_neg hnot]
    exact h.regs id hid (by simp)
  · rw [← lower_parameters hg target] at hid
    simp only [World.enter, if_pos hid]
    obtain ⟨d, hd, hvalue⟩ := Option.map_eq_some_iff.mp ((hpassed id).trans (congrArg (·.map some) hv))
    rw [hd]
    exact hvalue

/-- What a run that comes to an end does in its first block. -/
theorem runAt_cases {A : Answerer V σ} {jumps : Nat} {v : V} {t : σ}
    (hrun : Meaning.runAt A functions g inputs jumps b 0 s = some (v, t)) :
    ∃ e s', runBody A functions g inputs (g.listing b) s = some (e, s') ∧
      (e = .returned v ∧ t = s'.world ∨ e = .fell ∧ ∃ target j, next? (g.successors b) s'.condition = some target ∧
        jumps = j + 1 ∧ Meaning.runAt A functions g inputs j target 0 s'.enter = some (v, t)) := by
  unfold Meaning.runAt at hrun
  cases hblock : g.blocks[b.index]? with
  | none => rw [hblock] at hrun; cases hrun
  | some block =>
    have hget : g.blocks.getD b.index {} = block := by rw [Array.getD_eq_getD_getElem?, hblock]; rfl
    rw [hblock] at hrun
    simp only [Option.bind_eq_bind, Option.bind_some, List.drop_zero] at hrun
    obtain ⟨⟨e, s'⟩, hbody, hrun⟩ := Option.bind_eq_some_iff.mp hrun
    rw [Graph.listing, Graph.successors, hget]
    refine ⟨e, s', hbody, ?_⟩
    cases e with
    | returned v' =>
      cases hrun
      exact .inl ⟨rfl, rfl⟩
    | fell =>
      obtain ⟨target, hnext, hrun⟩ := Option.bind_eq_some_iff.mp hrun
      cases jumps with
      | zero => cases hrun
      | succ j => exact .inr ⟨rfl, target, j, hnext, rfl, hrun⟩

theorem Shows.runAt (hg : g.Sketch []) {jumps : Nat} {v : V} {t : σ} (h : Shows A g (g.parameters b) s ρ)
    (hrun : Meaning.runAt (A.onGlobal global) functions g inputs jumps b 0 s = some (v, t)) {n : Nat} (hn : jumps < n) :
    ∃ d, (implementing A functions global inputs g).runAt (lower g).graph n b ρ s.world = .ok d t ∧
      d.value? A = some v := by
  obtain ⟨n, rfl⟩ : ∃ m, n = m + 1 := ⟨n - 1, by omega⟩
  induction jumps using Nat.strong_induction_on generalizing b s ρ n with
  | h jumps ih =>
    obtain ⟨e, s', hbody, hend⟩ := runAt_cases hrun
    obtain ⟨d, hcode, hends⟩ := h.runBlock hg hbody
    rcases hend with ⟨rfl, rfl⟩ | ⟨rfl, target, j, hnext, rfl, hlater⟩
    · cases hends with
      | returned hv =>
        refine ⟨_, ?_, hv⟩
        unfold World.runAt
        exact bind_of_ok hcode
    · cases hends with | fell hshows
      obtain ⟨n, rfl⟩ : ∃ m, n = m + 1 := ⟨n - 1, by omega⟩
      obtain ⟨d, hd, hv⟩ := ih j (by omega) (hshows.enter hg target) hlater n (by omega)
      refine ⟨d, ?_, hv⟩
      unfold World.runAt
      refine (bind_of_ok hcode).trans ?_
      simp only [lower_successors hg, hshows.condition, hnext]
      exact hd

end

/-! ### Graphs of scripts -/

end ScriptEngine.Meaning
