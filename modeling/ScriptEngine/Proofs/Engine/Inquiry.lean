import ScriptEngine.Proofs.Engine.Outline
import ScriptEngine.Proofs.Graph.Search

/-!
Code generation as an inquiry. It looks at the engine in no other way than by asking for the words of
constants, and what it asks next depends on the words that it got before. So it is a tree of questions
that does not depend on who answers them, and everything about its runs follows from what happens at
one question.
-/

namespace ScriptEngine

open State Relation

namespace Engine

/-- A tree of questions for words of constants. -/
inductive Inquiry (α : Type) where
  | done (a : α)
  | fail (err : CompileError)
  | ask (c : Const) (next : Word → Inquiry α)

namespace Inquiry

variable {α β : Type} {resolve : Const → CompileM Word}

/-- What an inquiry comes to if its questions are answered in this way. -/
def run (resolve : Const → CompileM Word) : Inquiry α → CompileM α
  | done a => pure a
  | fail err => throw err
  | ask c next => do (next (← resolve c)).run resolve

def bind (f : α → Inquiry β) : Inquiry α → Inquiry β
  | done a => f a
  | fail err => fail err
  | ask c next => ask c fun w => (next w).bind f

theorem run_bind (q : Inquiry α) (f : α → Inquiry β) (resolve : Const → CompileM Word) :
    (q.bind f).run resolve = q.run resolve >>= fun a => (f a).run resolve := by
  induction q with
  | done a => rfl
  | fail err => rfl
  | ask c next ih =>
    simp only [bind, run, ih]
    exact (bind_assoc _ _ _).symm

/-- Whether only such constants are asked for. -/
def Within (U : Const → Prop) : Inquiry α → Prop
  | done _ => True
  | fail _ => True
  | ask c next => U c ∧ ∀ w, (next w).Within U

/-- Whether the inquiry cannot be done before it has asked for a constant. -/
def Demands (c : Const) : Inquiry α → Prop
  | done _ => False
  | fail _ => True
  | ask c' next => c = c' ∨ ∀ w, (next w).Demands c

/-- `q.Visits resolve e c t`: asked in state `e`, the inquiry comes to ask for `c`, in state `t`. -/
inductive Visits (resolve : Const → CompileM Word) : Inquiry α → Engine → Const → Engine → Prop
  | here {c : Const} {next : Word → Inquiry α} {e : Engine} : Visits resolve (ask c next) e c e
  | later {c c' : Const} {next : Word → Inquiry α} {w : Word} {e e' t : Engine}
    (ok : resolve c' e = .ok w e') (h : Visits resolve (next w) e' c t) :
    Visits resolve (ask c' next) e c t

section

variable {U : Const → Prop} {c : Const} {q : Inquiry α} {f : α → Inquiry β}

theorem Within.bind (h : q.Within U) (hf : ∀ a, (f a).Within U) : (q.bind f).Within U := by
  induction q with
  | done a => exact hf a
  | fail err => trivial
  | ask c next ih => exact ⟨h.1, fun w => ih w (h.2 w)⟩

theorem Demands.bind_left (h : q.Demands c) : (q.bind f).Demands c := by
  induction q with
  | done a => exact h.elim
  | fail err => trivial
  | ask c' next ih => exact h.imp_right fun h w => ih w (h w)

theorem Demands.bind_right (hf : ∀ a, (f a).Demands c) : (q.bind f).Demands c := by
  induction q with
  | done a => exact hf a
  | fail err => trivial
  | ask c' next ih => exact .inr fun w => ih w

end

section

variable {resolve' : Const → CompileM Word} {U : Const → Prop} {I : Engine → Prop}
  {R : Engine → Engine → Prop} {q : Inquiry α} {e : Engine}

/-- Two ways of answering that agree wherever the inquiry may ask come to the same. -/
theorem run_congr (h : q.Within U)
    (hsame : ∀ c t, U c → I t → resolve c t = resolve' c t)
    (hkeep : ∀ c t w t', I t → resolve c t = .ok w t' → I t') (he : I e) :
    q.run resolve e = q.run resolve' e := by
  induction q generalizing e with
  | done a => rfl
  | fail err => rfl
  | ask c next ih =>
    have hfirst := hsame c e h.1 he
    cases hanswer : resolve c e with
    | ok w t =>
      rw [run, run, bind_of_ok hanswer, bind_of_ok (hfirst ▸ hanswer)]
      exact ih w (h.2 w) (hkeep c e w t he hanswer)
    | error err t =>
      rw [run, run, bind_of_error hanswer, bind_of_error (hfirst ▸ hanswer)]

/-- What every answer leaves, the inquiry leaves. -/
theorem finalState_run (refl : ∀ e, R e e) (trans : ∀ {e e' e''}, R e e' → R e' e'' → R e e'')
    (hleave : ∀ c e, R e (finalState (resolve c) e)) (e : Engine) :
    R e (finalState (q.run resolve) e) := by
  induction q generalizing e with
  | done a => exact refl e
  | fail err => exact refl e
  | ask c next ih =>
    refine finalState_bind (fun w t hok => ?_) fun err t herror => ?_
    · exact trans (finalState_ok hok ▸ hleave c e) (ih w t)
    · exact finalState_error herror ▸ hleave c e

theorem Visits.leaves (refl : ∀ e, R e e) (trans : ∀ {e e' e''}, R e e' → R e' e'' → R e e'')
    (hleave : ∀ c e, R e (finalState (resolve c) e)) {c : Const} {t : Engine}
    (h : q.Visits resolve e c t) :
    R e t ∧ R (finalState (resolve c) t) (finalState (q.run resolve) e) := by
  induction h with
  | @here c next e =>
    refine ⟨refl e, finalState_bind (fun w t hok => ?_) fun err t herror => ?_⟩
    · rw [finalState_ok hok]
      exact finalState_run refl trans hleave t
    · rw [finalState_error herror]
      exact refl t
  | @later c c' next w e e' t ok _ ih =>
    have hfinal : finalState ((ask c' next).run resolve) e = finalState ((next w).run resolve) e' := by
      unfold finalState
      rw [run, bind_of_ok ok]
    rw [hfinal]
    exact ⟨trans (finalState_ok ok ▸ hleave c' e) ih.1, ih.2⟩

/-- An inquiry that is done has got an answer to everything that it demands. -/
theorem Demands.visits {c : Const} {a : α} {e' : Engine} (h : q.Demands c)
    (hrun : q.run resolve e = .ok a e') :
    ∃ t w t', q.Visits resolve e c t ∧ resolve c t = .ok w t' := by
  induction q generalizing e with
  | done a => exact h.elim
  | fail err => exact (throw_eq_ok.mp hrun).elim
  | ask c' next ih =>
    obtain ⟨w, t, hanswer, hrest⟩ := bind_eq_ok.mp hrun
    rcases h with rfl | h
    · exact ⟨e, w, t, .here, hanswer⟩
    · obtain ⟨t', w', t'', hvisit, hok⟩ := ih w (h w) hrest
      exact ⟨t', w', t'', .later hanswer hvisit, hok⟩

end
end Inquiry

/-! ### Steps of code generation -/

/-- A step of code generation, for any way of answering, as an inquiry that asks for nothing but `U`
and demands `D`. -/
structure Inquired {α : Type} (U D : Const → Prop) (x : (Const → CompileM Word) → EmitM α) where
  tree : Emission → Inquiry (α × Emission)
  run_tree : ∀ resolve s, (tree s).run resolve = x resolve s
  within : ∀ s, (tree s).Within U
  demands : ∀ s c, D c → (tree s).Demands c

namespace Inquired

variable {α β : Type} {U D E : Const → Prop}

def pure (a : α) : Inquired U (fun _ => False) fun _ => (Pure.pure a : EmitM α) where
  tree s := .done (a, s)
  run_tree _ _ := rfl
  within _ := trivial
  demands _ _ h := h.elim

def throw (err : CompileError) : Inquired U D fun _ => (throw err : EmitM α) where
  tree _ := .fail err
  run_tree _ _ := rfl
  within _ := trivial
  demands _ _ _ := trivial

def get : Inquired U (fun _ => False) fun _ => (get : EmitM Emission) where
  tree s := .done (s, s)
  run_tree _ _ := rfl
  within _ := trivial
  demands _ _ h := h.elim

def update (f : Emission → Emission) : Inquired U (fun _ => False) fun _ => (modify f : EmitM Unit) where
  tree s := .done ((), f s)
  run_tree _ _ := rfl
  within _ := trivial
  demands _ _ h := h.elim

/-- One question. -/
def answer {c : Const} (hc : U c) :
    Inquired U (· = c) fun resolve => (liftM (resolve c) : EmitM Word) where
  tree s := .ask c fun w => .done (w, s)
  run_tree _ _ := rfl
  within _ := ⟨hc, fun _ => trivial⟩
  demands _ _ h := .inl h

def bind {x : (Const → CompileM Word) → EmitM α} {f : (Const → CompileM Word) → α → EmitM β}
    (hx : Inquired U D x) (hf : ∀ a, Inquired U E fun resolve => f resolve a) :
    Inquired U (fun c => D c ∨ E c) fun resolve => x resolve >>= f resolve where
  tree s := (hx.tree s).bind fun r => (hf r.1).tree r.2
  run_tree resolve s := by
    rw [Inquiry.run_bind, hx.run_tree]
    simp only [(hf _).run_tree]
    rfl
  within s := (hx.within s).bind fun r => (hf r.1).within r.2
  demands s c h := by
    rcases h with h | h
    · exact (hx.demands s c h).bind_left
    · exact .bind_right fun r => (hf r.1).demands r.2 c h

def mono {x : (Const → CompileM Word) → EmitM α} (hx : Inquired U D x) (h : ∀ c, E c → D c) :
    Inquired U E x := ⟨hx.tree, hx.run_tree, hx.within, fun s c hc => hx.demands s c (h c hc)⟩

def none {x : (Const → CompileM Word) → EmitM α} (hx : Inquired U D x) :
    Inquired U (fun _ => False) x := hx.mono fun _ h => h.elim

def congr {x y : (Const → CompileM Word) → EmitM α} (hx : Inquired U D x)
    (h : ∀ resolve, y resolve = x resolve) : Inquired U D y :=
  ⟨hx.tree, fun resolve s => by rw [hx.run_tree, h], hx.within, hx.demands⟩

def mapM {l : List α} {f : (Const → CompileM Word) → α → EmitM β} {D : α → Const → Prop}
    (hf : ∀ a ∈ l, Inquired U (D a) fun resolve => f resolve a) :
    Inquired U (fun c => ∃ a ∈ l, D a c) fun resolve => l.mapM (f resolve) := by
  induction l with
  | nil => exact (Inquired.pure []).mono (by simp)
  | cons a l ih =>
    simp only [List.mapM_cons]
    refine ((hf a (by simp)).bind fun _ => (ih fun a h => hf a (by simp [h])).bind fun _ =>
      .pure _).mono ?_
    rintro c ⟨b, hb, hc⟩
    rcases List.mem_cons.mp hb with rfl | hb
    · exact .inl hc
    · exact .inr (.inl ⟨b, hb, hc⟩)

end Inquired
end Engine

/-- Whether an instruction of the kind takes a constant as the value of one of its operands. -/
def Instr.Uses (i : Instr) (op : PrimOp) (c : Const) : Prop :=
  ∃ k : Nat, op.roles[k]? = some Role.operand ∧ i.inputs[k]? = some (Input.const c)

namespace Graph

/-- Whether code for some instructions needs the word of a constant. -/
def UsedIn (g : Graph) (ids : List InstrId) (c : Const) : Prop :=
  ∃ id ∈ ids, ∃ i op, g.instrs[id.index]? = some i ∧ i.op = .prim op ∧ i.Uses op c

/-- Whether code for the graph needs the word of a constant: where control can get to. -/
def Materialises (g : Graph) (c : Const) : Prop :=
  ∃ (b : BlockId) (block : Block), ReflTransGen g.Edge ⟨0⟩ b ∧ g.blocks[b.index]? = some block ∧ g.UsedIn block.instrs c

/-- Constants for which code of the graph may need a word. -/
def Carries (g : Graph) (c : Const) : Prop :=
  c = .undefined ∨ c = .bool true ∨ ∃ i ∈ g.instrs, Input.const c ∈ i.inputs

end Graph

namespace Engine.Emission

variable {α : Type} {U : Const → Prop} {i : Instr} {op : PrimOp} {g : Graph} {trap : Bool}

/-- Code generation for a graph, by what answers for its constants. -/
abbrev scopeOf (g : Graph) (trap : Bool) (resolve : Const → CompileM Word) : EmissionScope :=
  { graph := g, resolve, trapOnEntry := trap }

def inquiredAsk (question : Except GraphError α) :
    Inquired U (fun _ => False) fun _ => ask question := by
  cases question with
  | ok a => exact .pure a
  | error e => exact .throw _

def inquiredFail {D : Const → Prop} (operation reason : String) :
    Inquired U D fun _ => (fail operation reason : EmitM α) := .throw _

def inquiredConstant {c : Const} (hc : U c) :
    Inquired U (· = c) fun resolve => constant (scopeOf g trap resolve) c := by
  have hrest : ∀ w : Word, Inquired U (fun _ => False) fun _ => (do
      match c with
      | .raw _ => return w
      | .weak _ =>
        modify fun s => { s with record.weak := s.record.weak.push w }
        return w
      | _ =>
        if w.isPointer then modify fun s => { s with record.strong := s.record.strong.push w }
        return w : EmitM Word) := by
    intro w
    split
    · exact .pure _
    · exact ((Inquired.update _).bind fun _ => .pure w).none
    · split
      · exact ((Inquired.update _).bind fun _ => .pure w).none
      · exact .pure _
  exact ((Inquired.answer hc).bind hrest).mono fun _ h => .inl h

/-- A question about the graph, whose answer is known. -/
def inquiredAskBind {β : Type} {D : Const → Prop} {question : Except GraphError α}
    {f : (Const → CompileM Word) → α → EmitM β}
    (h : ∀ a, question = .ok a → Inquired U D fun resolve => f resolve a) :
    Inquired U D fun resolve => ask question >>= f resolve := by
  cases question with
  | ok a => exact (h a rfl).congr fun _ => rfl
  | error e => exact (Inquired.throw (.graph e)).congr fun _ => rfl

def inquiredOperand (hi : ∀ c, Input.const c ∈ i.inputs → U c) (k : Nat) :
    Inquired U (fun c => i.inputs[k]? = some (.const c))
      fun resolve => operand (scopeOf g trap resolve) i k := by
  refine inquiredAskBind fun input hinput => ?_
  have hget : i.inputs[k]? = some input := by
    unfold Instr.input at hinput
    split at hinput
    · rename_i found hfound
      cases hinput
      exact hfound
    · cases hinput
  cases input with
  | value id =>
    refine (Inquired.get.bind (E := fun _ => False) fun s => ?_).mono (by simp [hget])
    split
    · exact .pure _
    · exact inquiredFail _ _
  | const c =>
    refine ((inquiredConstant (hi c (List.mem_of_getElem? hget))).bind fun w => .pure _).mono ?_
    rintro c' hc
    rw [hget] at hc
    cases hc
    exact .inl rfl

def inquiredCloseArea (operation : String) (argc : Int) :
    Inquired U (fun _ => False) fun _ => closeArea operation argc := by
  refine (Inquired.get.bind (E := fun _ => False) fun s => ?_).none
  split
  · exact inquiredFail _ _
  · refine ((Inquired.update _).bind (E := fun _ => False) fun _ => ?_).none
    split
    · exact inquiredFail _ _
    · exact .pure _

def inquiredOpenArea (argc : Int) : Inquired U (fun _ => False) fun _ => openArea argc := .update _

def inquiredPush (value : Operand) : Inquired U (fun _ => False) fun _ => push value := by
  refine (Inquired.get.bind (E := fun _ => False) fun s => ?_).none
  split
  · exact inquiredFail _ _
  · simp only
    split
    · exact .update _
    · exact inquiredFail _ _

def inquiredSetCondition (condition : Condition) :
    Inquired U (fun _ => False) fun _ => setCondition condition :=
  ((Inquired.update _).bind fun _ => .pure _).none

def inquiredCompareInput (i : Instr) (index : Nat) :
    Inquired U (fun _ => False) fun _ => compareInput i index := by
  refine ((inquiredAsk _).bind (E := fun _ => False) fun c => ?_).none
  split
  · exact .pure _
  · exact inquiredFail _ _

def inquiredArithmetic (op : Arithmetic) :
    Inquired U (fun _ => False) fun _ => arithmetic op :=
  ((Inquired.update _).bind fun _ => .pure _).none

def inquiredPrimitive (hu : U .undefined) (hb : U (.bool true))
    (hi : ∀ c, Input.const c ∈ i.inputs → U c) (op : PrimOp) :
    Inquired U (i.Uses op) fun resolve => primitive (scopeOf g trap resolve) i op := by
  -- Every instruction asks for its operands, in any order, before it can answer.
  unfold primitive
  cases op
  all_goals
    simp only
    apply Inquired.mono
    case hx =>
      with_reducible repeat first
        | exact .pure _
        | exact inquiredFail _ _
        | exact inquiredSetCondition _
        | exact inquiredArithmetic _
        | (apply Inquired.bind (inquiredOperand hi _); intro _)
        | (apply Inquired.bind (inquiredConstant hu); intro _)
        | (apply Inquired.bind (inquiredConstant hb); intro _)
        | (apply Inquired.bind (inquiredAsk _); intro _)
        | (apply Inquired.bind (inquiredCompareInput i _); intro _)
        | (apply Inquired.bind (inquiredCloseArea _ _); intro _)
        | (apply Inquired.bind (inquiredOpenArea _); intro _)
        | (apply Inquired.bind (inquiredPush _); intro _)
        | exact ((Inquired.update _).bind fun _ => .pure _).none
        | exact ((Inquired.update _).bind fun _ => inquiredSetCondition _).none
        | (apply Inquired.bind (E := fun _ => False) Inquired.get; intro _)
        | split
    case h =>
      rintro c ⟨k, hk, hc⟩
      rcases k with _ | _ | _ | _ | _ | k <;> simp_all [PrimOp.roles]

def inquiredInstructions (block : BlockId) (ids : List InstrId) (body : List MachineInstr) :
    Inquired g.Carries (g.UsedIn ids)
      fun resolve => instructions (scopeOf g trap resolve) block ids body := by
  induction ids generalizing body with
  | nil => exact (Inquired.pure _).mono (by simp [Graph.UsedIn])
  | cons id rest ih =>
    unfold instructions
    dsimp only [scopeOf]
    refine inquiredAskBind fun i hfound => ?_
    have hget : g.instrs[id.index]? = some i := by
      unfold Graph.instr at hfound
      split at hfound
      · rename_i found hget
        cases hfound
        exact hget
      · cases hfound
    cases hop : i.op with
    | script op => exact inquiredFail _ _
    | prim op =>
      have hi : ∀ c, Input.const c ∈ i.inputs → g.Carries c := fun c hc =>
        .inr (.inr ⟨i, Array.mem_of_getElem? hget, hc⟩)
      refine ((inquiredPrimitive (.inl rfl) (.inr (.inl rfl)) hi op).bind
        (E := g.UsedIn rest) fun emitted => ?_).mono ?_
      · cases emitted with
        | nothing => exact ih _
        | effect action => exact ih _
        | value action => exact ((Inquired.update _).bind fun _ => ih _).mono fun _ h => .inr h
        | exit exit =>
          cases rest with
          | nil => exact (Inquired.pure _).mono (by simp [Graph.UsedIn])
          | cons next more => exact inquiredFail _ _
      · rintro c ⟨id', hid, j, op', hj, hop', huses⟩
        rcases List.mem_cons.mp hid with rfl | hid
        · rw [hget] at hj
          cases hj
          rw [hop] at hop'
          cases hop'
          exact .inl huses
        · exact .inr ⟨id', hid, j, op', hj, hop', huses⟩

def inquiredEdge (target : BlockId) :
    Inquired U (fun _ => False) fun resolve => edge (scopeOf g trap resolve) target := by
  unfold edge
  dsimp only [scopeOf]
  refine inquiredAskBind fun phis _ => (Inquired.get.bind fun s => Inquired.bind
    (.mapM (D := fun _ _ => False) fun phi _ => ?_) fun _ => .pure _).none
  split
  · exact .pure _
  · exact inquiredFail _ _

def inquiredFallThrough (block : BlockId) :
    Inquired U (fun _ => False) fun resolve => fallThrough (scopeOf g trap resolve) block := by
  unfold fallThrough
  dsimp only [scopeOf]
  refine inquiredAskBind fun content _ => ?_
  split
  · exact ((inquiredEdge _).bind fun _ => .pure _).none
  · refine (Inquired.get.bind (E := fun _ => False) fun s => ?_).none
    split
    · exact inquiredFail _ _
    · exact ((inquiredEdge _).bind fun _ => (inquiredEdge _).bind fun _ => .pure _).none
  · exact inquiredFail _ _

def inquiredBlock (id : BlockId) :
    Inquired g.Carries (fun c => ∃ block, g.blocks[id.index]? = some block ∧ g.UsedIn block.instrs c)
      fun resolve => block (scopeOf g trap resolve) id := by
  have hrest : ∀ params, Inquired g.Carries
      (fun c => ∃ block, g.blocks[id.index]? = some block ∧ g.UsedIn block.instrs c)
      fun resolve => (do
        let instrs := (← ask (g.block id)).instrs
        let (body, ended) ← instructions (scopeOf g trap resolve) id instrs []
        let exit ← match ended with
          | some exit => pure exit
          | none => fallThrough (scopeOf g trap resolve) id
        return { id, params, body, exit } : EmitM MachineBlock) := by
    intro params
    refine inquiredAskBind fun content hcontent => ?_
    have hget : g.blocks[id.index]? = some content := by
      unfold Graph.block at hcontent
      split at hcontent
      · rename_i found hget
        cases hcontent
        exact hget
      · cases hcontent
    refine ((inquiredInstructions id content.instrs []).bind (E := fun _ => False)
      fun ended => ?_).mono ?_
    · simp only
      split
      · exact .pure _
      · exact ((inquiredFallThrough _).bind fun _ => .pure _).none
    · rintro c ⟨block, hblock, hused⟩
      rw [hget] at hblock
      cases hblock
      exact .inl hused
  unfold block
  dsimp only [scopeOf]
  refine ((Inquired.update _).bind fun _ => inquiredAskBind fun params _ => ?_).mono fun _ h => .inr h
  split
  · exact ((Inquired.update _).bind fun _ => hrest params).mono fun _ h => .inr h
  · exact hrest params

end Engine.Emission

namespace Engine

section

variable (g : Graph) (trap : Bool)

/-- Code generation for some blocks. -/
def inquiredBlocks (order : List BlockId) : Inquired g.Carries
    (fun c => ∃ b ∈ order, ∃ block, g.blocks[b.index]? = some block ∧ g.UsedIn block.instrs c)
    fun resolve => order.mapM (Emission.block (Emission.scopeOf g trap resolve)) :=
  .mapM fun b _ => Emission.inquiredBlock b

/-- The first block that does not list its parameters. -/
def phiError? (order : List BlockId) : Option GraphError :=
  order.findSome? fun b =>
    match g.phis b with
    | .ok _ => none
    | .error e => some e

/-- Code generation for a graph as an inquiry. -/
def emission : Inquiry (Program × CodeRecord) :=
  match g.reversePostorder with
  | .error e => .fail (.graph e)
  | .ok order =>
    match phiError? g order with
    | some e => .fail (.graph e)
    | none => ((inquiredBlocks g trap order).tree { record := { name := g.name } }).bind fun r =>
      .done ({ name := g.name, trapOnEntry := trap, blocks := r.1 }, r.2.record)

/-- The check of all blocks before any code is generated. -/
theorem forIn_phis (order : List BlockId) : (forIn order PUnit.unit fun b _ =>
      match g.phis b with
      | .ok _ => pure (ForInStep.yield PUnit.unit)
      | .error e => (do
        let _ ← (throw (.graph e) : CompileM PUnit)
        pure (ForInStep.yield PUnit.unit)) : CompileM PUnit) =
      match phiError? g order with
      | some e => throw (.graph e)
      | none => pure PUnit.unit := by
  induction order with
  | nil => rfl
  | cons b rest ih =>
    rw [List.forIn_cons, phiError?, List.findSome?_cons]
    cases hb : g.phis b with
    | ok phis =>
      simp only [pure_bind]
      exact ih
    | error e => rfl

theorem run_emission (resolve : Const → CompileM Word) :
    (emission g trap).run resolve = emitProgram (Emission.scopeOf g trap resolve) := by
  unfold emission emitProgram
  cases horder : g.reversePostorder with
  | error e => rfl
  | ok order =>
    simp only [pure_bind]
    refine .trans ?_ (congrArg (fun check : CompileM PUnit => check >>= fun _ => do
      let r ← (order.mapM (Emission.block (Emission.scopeOf g trap resolve))).run
        { record := { name := g.name } }
      return (({ name := g.name, trapOnEntry := trap, blocks := r.1 } : Program), r.2.record))
        (forIn_phis g order)).symm
    cases phiError? g order with
    | some e => rfl
    | none =>
      simp only [pure_bind, Inquiry.run_bind, (inquiredBlocks g trap order).run_tree]
      rfl

theorem emission_within : (emission g trap).Within g.Carries := by
  unfold emission
  split
  · trivial
  · split
    · trivial
    · exact ((inquiredBlocks g trap _).within _).bind fun _ => trivial

theorem emission_demands {c : Const} (h : g.Materialises c) : (emission g trap).Demands c := by
  obtain ⟨b, block, hreach, hblock, hused⟩ := h
  unfold emission
  split
  · trivial
  · rename_i order horder
    split
    · trivial
    · have hmem := Graph.mem_of_reversePostorder horder hreach
      exact ((inquiredBlocks g trap order).demands _ c ⟨b, hmem, block, hblock, hused⟩).bind_left

end

end Engine
end ScriptEngine
