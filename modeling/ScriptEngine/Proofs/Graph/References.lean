import Mathlib.Data.List.Perm.Basic
import ScriptEngine.Proofs.Graph.Constructed

/-!
References to functions. Every step of the walk fills the places that it takes, and leaves one reference to each
of them: in the graph that it was in, or in one of those that it has made. So the functions of a script are
numbered as a tree.
-/

namespace ScriptEngine.Graph

open State Construction Syntax Meaning
open scoped List

/-- Inputs of the instructions of a graph that make closures. -/
def closures (g : Graph) : List (List Input) :=
  (g.instrs.toList.filter (·.op = .script .closure)).map (·.inputs)

/-- What an instruction that makes a closure of a function refers to it by. -/
def reference (index : Nat) : List Input := [.const (.function index)]

/-- Steps have taken new places and filled them, and made a reference to each. -/
def Spawns (c c' : Construction) : Prop :=
  ∃ new : List Graph, c'.graphs.toList = c.graphs.toList ++ new.map some ∧
    (c'.graph.closures ++ new.flatMap closures).Perm
      (c.graph.closures ++ (List.range' c.graphs.size new.length).map reference)

namespace Spawns

variable {c c₁ c₂ : Construction}

theorem of_eq (hgraphs : c₁.graphs = c.graphs) (hclosures : c₁.graph.closures = c.graph.closures) : Spawns c c₁ := by
  refine ⟨[], ?_, ?_⟩
  · rw [hgraphs, List.map_nil, List.append_nil]
  · rw [hclosures]
    exact .refl _

theorem trans (h : Spawns c c₁) (h' : Spawns c₁ c₂) : Spawns c c₂ := by
  obtain ⟨new, hgraphs, hperm⟩ := h
  obtain ⟨new', hgraphs', hperm'⟩ := h'
  have hsize : c₁.graphs.size = c.graphs.size + new.length := by
    have := congrArg List.length hgraphs
    simpa using this
  refine ⟨new ++ new', by rw [hgraphs', hgraphs, List.map_append, List.append_assoc], ?_⟩
  rw [List.flatMap_append, List.length_append, ← List.range'_append_1, List.map_append, ← hsize, ← List.append_assoc,
    ← List.append_assoc]
  calc c₂.graph.closures ++ new.flatMap closures ++ new'.flatMap closures
    _ ~ c₂.graph.closures ++ new'.flatMap closures ++ new.flatMap closures := by
      rw [List.append_assoc, List.append_assoc]
      exact (List.perm_append_comm).append_left _
    _ ~ c₁.graph.closures ++ (List.range' c₁.graphs.size new'.length).map reference ++ new.flatMap closures :=
      hperm'.append_right _
    _ ~ c₁.graph.closures ++ new.flatMap closures ++ (List.range' c₁.graphs.size new'.length).map reference := by
      rw [List.append_assoc, List.append_assoc]
      exact (List.perm_append_comm).append_left _
    _ ~ _ := hperm.append_right _

end Spawns

/-- An error other than that of a place that was not filled. -/
def Harmless : SourceError → Prop
  | .unsupported feature => feature.toList.head? ≠ some 'f'
  | _ => True

/-- Steps that keep the numbering, or fail for another reason. -/
def Numbering {α : Type} (m : ConstructM α) : Prop :=
  ∀ c, match m c with
    | .ok _ c' => Spawns c c'
    | .error e _ => Harmless e

namespace Numbering

variable {α β : Type} {m : ConstructM α} {f : α → ConstructM β}

theorem of_ok (h : ∀ {c a c'}, m c = .ok a c' → Spawns c c') (hfails : ∀ {c e c'}, m c = .error e c' → Harmless e) :
    Numbering m := by
  intro c
  cases hm : m c with
  | ok a c' => exact h hm
  | error e c' => exact hfails hm

theorem bind (hm : Numbering m) (hf : ∀ a, Numbering (f a)) : Numbering (m >>= f) := by
  intro c
  have hfirst := hm c
  rw [show (m >>= f) c = EStateM.bind m f c from rfl, EStateM.bind]
  cases hmc : m c with
  | error e c₁ =>
    rw [hmc] at hfirst
    exact hfirst
  | ok a c₁ =>
    rw [hmc] at hfirst
    have hsecond := hf a c₁
    simp only at hfirst ⊢
    cases hfa : f a c₁ with
    | error e c₂ =>
      rw [hfa] at hsecond
      exact hsecond
    | ok b c₂ =>
      rw [hfa] at hsecond
      exact hfirst.trans hsecond

protected theorem pure (a : α) : Numbering (Pure.pure a) := fun _ => .of_eq rfl rfl

theorem throw {e : SourceError} (h : Harmless e) : Numbering (throw e : ConstructM α) := fun _ => h

theorem get {f : Construction → ConstructM β} (hf : ∀ c, Numbering (f c)) : Numbering (get >>= f) :=
  fun c => hf c c

theorem discard (hm : Numbering m) : Numbering (discard m) := by
  intro c
  have hfirst := hm c
  rw [show Functor.discard m c = EStateM.map (fun _ => PUnit.unit) m c from rfl, EStateM.map]
  cases hmc : m c with
  | error e c₁ =>
    rw [hmc] at hfirst
    exact hfirst
  | ok a c₁ =>
    rw [hmc] at hfirst
    exact hfirst

theorem forM {step : α → ConstructM PUnit} (h : ∀ a, Numbering (step a)) : ∀ todo : List α, Numbering (todo.forM step)
  | [] => .pure _
  | a :: rest => .bind (h a) fun _ => forM h rest

theorem mapM (h : ∀ a, Numbering (f a)) : ∀ todo : List α, Numbering (todo.mapM f)
  | [] => by
    rw [List.mapM_nil]
    exact .pure _
  | a :: rest => by
    rw [List.mapM_cons]
    exact .bind (h a) fun _ => .bind (mapM h rest) fun _ => .pure _

theorem modifyFrame {f : Frame → Frame} (h : ∀ frame, (f frame).builder = frame.builder) :
    Numbering (modifyFrame f) := fun c => .of_eq rfl (by
      change (f c.frame).builder.graph.closures = _
      rw [h])

end Numbering

/-! ### Steps on the graph -/

theorem closures_appended {g : Graph} {b : BlockId} {op : Op} {inputs : List Input} :
    (appended g b op inputs).closures = g.closures ++ if op = .script .closure then [inputs] else [] := by
  unfold closures appended
  rw [Array.toList_push, List.filter_append, List.map_append]
  by_cases hop : op = .script .closure <;> simp [hop]

/-- Steps that make no closure. -/
def Tame {α : Type} (step : BuildM α) : Prop := ∀ b a b', step b = .ok a b' → b'.graph.closures = b.graph.closures

section

variable {α β : Type} {step : BuildM α} {f : α → BuildM β}

theorem Tame.bind (hs : Tame step) (hf : ∀ a, Tame (f a)) : Tame (step >>= f) := fun _ _ _ h => by
  obtain ⟨a, b₁, hfirst, hsecond⟩ := bind_eq_ok.mp h
  exact (hf a _ _ _ hsecond).trans (hs _ _ _ hfirst)

theorem Tame.discard (hs : Tame step) : Tame (discard step) := fun _ _ _ h => by
  obtain ⟨a, hok⟩ := discard_eq_ok.mp h
  exact hs _ _ _ hok

theorem Tame.forM {step : α → BuildM PUnit} (h : ∀ a, Tame (step a)) : ∀ todo : List α, Tame (todo.forM step)
  | [] => fun _ _ _ h => by
    obtain ⟨-, rfl⟩ := pure_eq_ok.mp (show (Pure.pure PUnit.unit : BuildM PUnit) _ = _ from h)
    rfl
  | a :: rest => .bind (h a) fun _ => forM h rest

theorem tame_appendTo {b : BlockId} {op : Op} {inputs : List Input} (hop : op ≠ .script .closure) :
    Tame (Builder.appendTo b op inputs) := fun _ _ _ h => by
  obtain ⟨g, hg, rfl⟩ := onGraph_eq_ok.mp h
  obtain ⟨-, hr⟩ := append_eq_ok hg
  cases hr
  rw [closures_appended, if_neg hop, List.append_nil]

theorem tame_appendPrim {b : BlockId} {op : PrimOp} {inputs : List Input} :
    Tame (Builder.appendTo b (.prim op) inputs) :=
  tame_appendTo fun hop => nomatch hop

theorem tame_emit {op : PrimOp} {inputs : List Input} : Tame (Builder.emit op inputs) := fun _ _ _ h =>
  tame_appendPrim _ _ _ h

theorem tame_emitScript {op : ScriptOp} {inputs : List Input} (hop : op ≠ .closure) :
    Tame (Builder.emitScript op inputs) := fun _ _ _ h =>
  tame_appendTo (fun h => hop (Op.script.inj h)) _ _ _ h

theorem tame_newBlock : Tame Builder.newBlock := fun _ _ _ h => by
  obtain ⟨g, hg, rfl⟩ := onGraph_eq_ok.mp h
  cases hg
  rfl

theorem tame_setSuccessors {b : BlockId} {next : List BlockId} : Tame (Builder.setSuccessors b next) := fun c _ _ h => by
  obtain ⟨g, hg, rfl⟩ := onGraph_eq_ok.mp h
  cases hs : c.graph.setSuccessors b next with
  | error e => simp only [hs] at hg; cases hg
  | ok g' =>
    simp only [hs] at hg
    cases hg
    obtain ⟨-, rfl⟩ := setSuccessors_eq_ok hs
    rfl

theorem tame_modify {f : Builder → Builder} (h : ∀ b, (f b).graph.instrs = b.graph.instrs) : Tame (modify f) := fun _ _ _ hok => by
  obtain rfl := modify_eq_ok.mp hok
  unfold closures
  rw [h]

end

namespace Numbering

variable {α β : Type}

/-- A step on the graph that makes no closure. -/
theorem build {step : BuildM α} (h : Tame step) : Numbering (build step) := by
  intro c
  unfold Construction.build EStateM.run
  cases hs : step c.frame.builder with
  | error e b => exact trivial
  | ok a b => exact .of_eq rfl (h _ _ _ hs)

theorem literal (c : Const) : Numbering (literal c) := build tame_emit

theorem emit {op : ScriptOp} {inputs : List Input} (hop : op ≠ .closure) : Numbering (emit op inputs) :=
  build (tame_emitScript hop)

theorem envInsert (x : Variable) (id : InstrId) : Numbering (envInsert x id) := modifyFrame fun _ => rfl

theorem envGet? (x : Variable) : Numbering (envGet? x) := .get fun _ => .pure _

theorem unsupported {feature : String} (h : feature.toList.head? ≠ some 'f') :
    Numbering (unsupported feature : ConstructM α) := throw h

theorem ret (value : InstrId) : Numbering (ret value) :=
  .bind (.discard (build tame_emit)) fun _ => modifyFrame fun _ => rfl

theorem ite {p : Prop} [Decidable p] {m m' : ConstructM α} (hm : Numbering m) (hm' : Numbering m') :
    Numbering (if p then m else m') := by
  split
  · exact hm
  · exact hm'

theorem retUndefined : Numbering retUndefined :=
  .get fun _ => .ite (.bind (literal _) fun _ => ret _) (.pure _)

theorem declare (name : String) (value : InstrId) : Numbering (Construction.bind name value) :=
  .get fun _ => .ite (.discard (emit (by decide))) (envInsert _ _)

theorem bindParams : ∀ (i : Nat) (items : List Binding), Numbering (bindParams i items)
  | _, [] => .pure _
  | i, .name _ :: rest => .bind (build tame_emit) fun _ => .bind (envInsert _ _) fun _ => bindParams (i + 1) rest
  | _, .pattern :: _ => unsupported (by decide)

theorem parameters (ps : Params) : Numbering (Construction.params ps) := by
  have hrest : Numbering (do
      Construction.bindParams 0 ps.items
      Construction.build (modify fun b => { b with graph.params := ps.items.length })) :=
    .bind (bindParams 0 ps.items) fun _ => build (tame_modify fun _ => rfl)
  unfold Construction.params
  split
  · exact .bind (unsupported (by decide)) fun _ => hrest
  · exact hrest

theorem split (test : InstrId) : Numbering (split test) :=
  .bind (.discard (emit (by decide))) fun _ => .bind (build tame_newBlock) fun _ => .bind (build tame_newBlock) fun _ =>
    .bind (build fun _ _ _ h => tame_setSuccessors _ _ _ h) fun _ => .pure _

theorem resume (block : BlockId) (env : Env) : Numbering (resume block env) :=
  .bind (build (tame_modify fun _ => rfl)) fun _ => modifyFrame fun _ => rfl

theorem capture : Numbering capture := .get fun _ => .pure _

theorem passFrom (phi : InstrId) (x : Variable) (arm : Arm) : Numbering (passFrom phi x arm) := by
  have hrest : ∀ value : InstrId, Numbering (Functor.discard (Construction.build
      (Builder.appendTo arm.block (.prim .toPhi) [.value phi, .value value]))) := fun _ =>
    .discard (build tame_appendPrim)
  unfold Construction.passFrom
  split
  · exact .bind (.pure _) hrest
  · exact .bind (build tame_appendPrim) hrest

theorem merge (block : BlockId) (arms : List Arm) (x : Variable) : Numbering (merge block arms x) := by
  unfold Construction.merge
  split
  · exact .pure _
  · exact .bind (build tame_appendPrim) fun phi => .bind (forM (passFrom phi x) arms) fun _ => .pure _

theorem join (arms : List Arm) : Numbering (join arms) :=
  .ite (modifyFrame fun _ => rfl) (.bind (build tame_newBlock) fun _ => .bind (forM (fun _ => build tame_setSuccessors) _)
    fun _ => .bind (mapM (merge _ _) _) fun _ => resume _ _)

theorem takeResult : Numbering takeResult := by
  refine .bind (envGet? _) fun r => ?_
  cases r with
  | some value => exact .bind (modifyFrame fun _ => rfl) fun _ => .pure _
  | none => exact literal _

theorem resultArm (block : BlockId) (env : Env) {value : ConstructM InstrId} (h : Numbering value) :
    Numbering (resultArm block env value) :=
  .bind (resume _ _) fun _ => .bind h fun _ => .bind (envInsert _ _) fun _ => capture

theorem loadName (name : String) : Numbering (loadName name) := by
  refine .bind (envGet? _) fun r => ?_
  cases r with
  | some value => exact .pure _
  | none => exact .ite (literal _) (emit (by decide))

theorem loadProperty (object key : InstrId) : Numbering (loadProperty object key) := emit (by decide)

theorem storeProperty (object key value : InstrId) : Numbering (storeProperty object key value) := emit (by decide)

theorem placeOf (name : String) : Numbering (placeOf name) := .get fun _ => .get fun _ => .ite (.pure _) (.pure _)

theorem read (place : Place) : Numbering place.read := by
  cases place with
  | property object key => exact loadProperty object key
  | _ => exact loadName _

theorem write (value : InstrId) (place : Place) : Numbering (place.write value) := by
  cases place with
  | «local» name => exact .bind (envInsert _ _) fun _ => .pure _
  | global name => exact emit (by decide)
  | property object key => exact storeProperty object key value

theorem head?_append {s : String} {a : Char} {rest : List Char} (hs : s.toList = a :: rest) (ha : a ≠ 'f') (t : String) :
    (s ++ t).toList.head? ≠ some 'f' := by
  rw [String.toList_append, hs]
  simpa using ha

theorem applyBinary (op : BinaryOp) (left right : InstrId) : Numbering (applyBinary op left right) := emit (by decide)

theorem applySign (sign : BinarySign) (left right : InstrId) : Numbering (applySign sign left right) := by
  cases sign with
  | other spelling => exact unsupported (head?_append rfl (by decide) spelling)
  | _ => exact applyBinary _ _ _

theorem applyUnary (op : UnaryOp) (value : InstrId) : Numbering (applyUnary op value) := emit (by decide)

theorem compound? (sign : AssignSign) : Numbering (compound? sign) := by
  cases sign with
  | other spelling => exact unsupported (head?_append rfl (by decide) spelling)
  | _ => exact .pure _

theorem keyConst (key : Syntax.Key) : Numbering (keyConst key) := by
  cases key with
  | computed => exact unsupported (by decide)
  | _ => exact .pure _

theorem pushArgs (args : List InstrId) : Numbering (pushArgs args) := build (.forM (fun _ => .discard tame_emit) _)

theorem callWith (callee receiver : InstrId) (args : List InstrId) : Numbering (callWith callee receiver args) :=
  .bind (pushArgs args) fun _ => build tame_emit

end Numbering

/-! ### Functions -/

theorem closures_start (name : String) : (Builder.start name).graph.closures = [] := rfl

section

variable {index : Nat} {frame : Frame} {m : ConstructM Unit} {c t : Construction}

theorem inFrame_of_ok {u : Unit} (h : m { c with frame } = .ok u t) : inFrame index frame m c =
    .ok () { graphs := t.graphs.setIfInBounds index (some t.graph), frame := c.frame } := by
  refine (get_bind _).trans ((modify_bind _ _).trans ?_)
  rw [bind_of_ok h]
  rfl

theorem inFrame_of_error {e : SourceError} (h : m { c with frame } = .error e t) :
    inFrame index frame m c = .error e t := by
  refine (get_bind _).trans ((modify_bind _ _).trans ?_)
  rw [bind_of_error h]

end

/-- What is built in a frame of its own fills the place that was taken for it. -/
theorem spawns_inFrame {c t : Construction} {name : String} {topLevel : Bool}
    (h : Spawns { graphs := c.graphs.push none, frame := { builder := Builder.start name, topLevel } } t) :
    ∃ new, (t.graphs.setIfInBounds c.graphs.size (some t.graph)).toList = c.graphs.toList ++ (t.graph :: new).map some ∧
      ((t.graph :: new).flatMap closures).Perm ((List.range' (c.graphs.size + 1) new.length).map reference) := by
  obtain ⟨new, hgraphs, hperm⟩ := h
  have hgraphs' : t.graphs.toList = c.graphs.toList ++ none :: new.map some := by
    rw [hgraphs, Array.toList_push, List.append_assoc]
    rfl
  refine ⟨new, ?_, ?_⟩
  · rw [Array.toList_setIfInBounds, hgraphs', List.set_append_right _ _ (by simp)]
    simp
  · rw [Array.size_push] at hperm
    exact hperm

/-- A function fills its place, and the graph that it is in refers to it. -/
theorem numbering_closure {name : Option String} {ps : Params} {content : Syntax.Body} (h : Numbering (body content)) :
    Numbering (closure (.mk name ps content)) := by
  intro c
  have hsteps : Numbering (do Construction.params ps; body content; Construction.retUndefined) :=
    .bind (.parameters ps) fun _ => .bind h fun _ => .retUndefined
  have hinner := hsteps { graphs := c.graphs.push none, frame := { builder := Builder.start (name.getD "anonymous") } }
  have hreserve : reserve c = .ok c.graphs.size { c with graphs := c.graphs.push none } := rfl
  rw [Construction.closure, bind_of_ok hreserve]
  cases hrun : (do Construction.params ps; body content; Construction.retUndefined : ConstructM Unit)
      { graphs := c.graphs.push none, frame := { builder := Builder.start (name.getD "anonymous") } } with
  | error e t =>
    rw [hrun] at hinner
    rw [bind_of_error (inFrame_of_error hrun)]
    exact hinner
  | ok u t =>
    rw [hrun] at hinner
    obtain ⟨new, hgraphs, hperm⟩ := spawns_inFrame hinner
    rw [bind_of_ok (inFrame_of_ok hrun)]
    generalize hplaced : t.graphs.setIfInBounds c.graphs.size (some t.graph) = placed at hgraphs ⊢
    cases hemit : Construction.emit .closure [.const (.function c.graphs.size)] { graphs := placed, frame := c.frame } with
    | error e c' =>
      unfold Construction.emit Construction.build EStateM.run at hemit
      split at hemit <;> cases hemit
      trivial
    | ok id c' =>
      obtain ⟨-, rfl, rfl⟩ := emit_eq_ok hemit
      refine ⟨t.graph :: new, hgraphs, ?_⟩
      change ((appended c.graph c.here (.script .closure) [.const (.function c.graphs.size)]).closures ++ _) ~ _
      rw [closures_appended, if_pos rfl, List.length_cons, List.range'_succ, List.map_cons, List.append_assoc]
      exact (hperm.cons _).append_left _

/-! ### The walk -/

/-- Two arms whose values meet. -/
theorem numbering_choice {test : InstrId} {yes no : ConstructM InstrId} (hyes : Numbering yes) (hno : Numbering no) :
    Numbering (do
      let (yesBlock, noBlock) ← split test
      let env := (← get).frame.env
      let yesArm ← resultArm yesBlock env yes
      let noArm ← resultArm noBlock env no
      join [yesArm, noArm]
      takeResult) :=
  .bind (.split test) fun _ => .get fun _ => .bind (.resultArm _ _ hyes) fun _ => .bind (.resultArm _ _ hno) fun _ =>
    .bind (.join _) fun _ => .takeResult

theorem numbering_logical (sign : LogicalSign) {left : InstrId} {right : ConstructM InstrId} (h : Numbering right) :
    Numbering (do
      let (yes, no) ← split left
      let env := (← get).frame.env
      let (long, short) ← match sign with
        | .and => pure (yes, no)
        | .or => pure (no, yes)
        | .coalesce => unsupported "Operator ??"
      let shortArm ← resultArm short env (pure left)
      let longArm ← resultArm long env right
      join [shortArm, longArm]
      takeResult) := by
  refine .bind (.split left) fun blocks => .get fun c => ?_
  have harms : ∀ long short : BlockId, Numbering (do
      let shortArm ← resultArm short c.frame.env (pure left)
      let longArm ← resultArm long c.frame.env right
      join [shortArm, longArm]
      takeResult) := fun long short =>
    .bind (.resultArm _ _ (.pure _)) fun _ => .bind (.resultArm _ _ h) fun _ => .bind (.join _) fun _ => .takeResult
  cases sign with
  | and => exact .bind (.pure _) fun _ => harms _ _
  | or => exact .bind (.pure _) fun _ => harms _ _
  | coalesce => exact .bind (.unsupported (by decide)) fun _ => harms _ _

theorem hoist_other {s : Stmt} {rest : List Stmt} (hs : ∀ f, s ≠ .function f) (h : Numbering (hoist rest)) :
    Numbering (hoist (s :: rest)) := by
  rw [hoist]
  · exact h
  · exact fun name ps content => hs _

mutual

theorem numbering_expression : ∀ x : Expr, Numbering (expression x)
  | .number value => by
    rw [expression]
    exact .literal _
  | .text _ => by
    rw [expression]
    exact .literal _
  | .bool _ => by
    rw [expression]
    exact .literal _
  | .null => by
    rw [expression]
    exact .literal _
  | .name text => by
    rw [expression]
    exact .loadName text
  | .this => by
    rw [expression]
    exact .build tame_emit
  | .binary sign left right => by
    rw [expression]
    exact .bind (numbering_expression left) fun _ => .bind (numbering_expression right) fun _ => .applySign _ _ _
  | .logical sign left right => by
    rw [expression]
    exact .bind (numbering_expression left) fun _ => numbering_logical sign (numbering_expression right)
  | .member object name => by
    rw [expression]
    exact .bind (numbering_expression object) fun _ => .bind (.literal _) fun _ => .loadProperty _ _
  | .index object key => by
    rw [expression]
    exact .bind (numbering_expression object) fun _ => .bind (numbering_expression key) fun _ => .loadProperty _ _
  | .conditional test yes no => by
    rw [expression]
    exact .bind (numbering_expression test) fun _ => numbering_choice (numbering_expression yes) (numbering_expression no)
  | .paren inner => by
    rw [expression]
    exact numbering_expression inner
  | .sequence first second => by
    rw [expression]
    exact .bind (.discard (numbering_expression first)) fun _ => numbering_expression second
  | .privateMember => by
    rw [expression]
    exact .unsupported (by decide)
  | .unsupported => by
    rw [expression]
    exact .unsupported (by decide)
  | .unary .minus operand => by
    rw [expression]
    exact .bind (numbering_expression operand) fun _ => .applyUnary _ _
  | .unary .not operand => by
    rw [expression]
    exact .bind (numbering_expression operand) fun _ => .applyUnary _ _
  | .unary .void operand => by
    rw [expression]
    exact .bind (.discard (numbering_expression operand)) fun _ => .literal _
  | .unary (.other spelling) _ => by
    rw [expression]
    exact .unsupported (Numbering.head?_append rfl (by decide) spelling)
  | .unary .delete operand => by
    cases operand with
    | member object name =>
      rw [expression]
      exact .bind (numbering_expression object) fun _ => .bind (.literal _) fun _ => .emit (by decide)
    | index object key =>
      rw [expression]
      exact .bind (numbering_expression object) fun _ => .bind (numbering_expression key) fun _ => .emit (by decide)
    | name text =>
      rw [expression]
      refine .bind (.envGet? _) fun r => ?_
      cases r with
      | none => exact .emit (by decide)
      | some _ => exact .literal _
    | _ =>
      rw [expression]
      · exact .bind (.discard (numbering_expression _)) fun _ => .literal _
      all_goals simp
  | .assign sign target value => by
    rw [expression]
    refine .bind (.compound? sign) fun op => .bind (numbering_placeFor target) fun place => ?_
    cases op with
    | none => exact .bind (numbering_expression value) fun _ => .write _ _
    | some op =>
      exact .bind (.read place) fun _ => .bind (numbering_expression value) fun _ => .bind (.applyBinary _ _ _) fun _ =>
        .write _ _
  | .call callee args => by
    cases callee with
    | member object name =>
      rw [expression]
      exact .bind (numbering_expression object) fun _ => .bind (.literal _) fun _ => .bind (.loadProperty _ _) fun _ =>
        .bind (numbering_arguments args) fun _ => .callWith _ _ _
    | index object key =>
      rw [expression]
      exact .bind (numbering_expression object) fun _ => .bind (numbering_expression key) fun _ =>
        .bind (.loadProperty _ _) fun _ => .bind (numbering_arguments args) fun _ => .callWith _ _ _
    | _ =>
      rw [expression]
      · exact .bind (numbering_expression _) fun _ => .bind (.literal _) fun _ => .bind (numbering_arguments args) fun _ =>
          .callWith _ _ _
      all_goals simp
  | .new callee args => by
    rw [expression]
    exact .bind (numbering_expression callee) fun _ => .bind (numbering_arguments args) fun _ =>
      .bind (.pushArgs _) fun _ => .emit (by decide)
  | .object list => by
    rw [expression]
    exact .bind (.emit (by decide)) fun object => .bind (numbering_properties object list) fun _ => .pure _
  | .array list => by
    rw [expression]
    exact .bind (.emit (by decide)) fun array => .bind (numbering_elements array 0 list) fun _ => .pure _
  | .function (.mk _ _ content) => by
    rw [expression]
    exact numbering_closure (numbering_body content)

theorem numbering_placeFor : ∀ x : Target, Numbering (placeFor x)
  | .name text => by
    rw [placeFor]
    exact .placeOf text
  | .member object name => by
    rw [placeFor]
    exact .bind (numbering_expression object) fun _ => .bind (.literal _) fun _ => .pure _
  | .index object key => by
    rw [placeFor]
    exact .bind (numbering_expression object) fun _ => .bind (numbering_expression key) fun _ => .pure _
  | .other => by
    rw [placeFor]
    exact .throw trivial

theorem numbering_arguments : ∀ x : List Element, Numbering (arguments x)
  | [] => by
    rw [arguments]
    exact .pure _
  | .item value :: rest => by
    rw [arguments]
    exact .bind (numbering_expression value) fun _ => .bind (numbering_arguments rest) fun _ => .pure _
  | .hole :: rest => by
    rw [arguments]
    exact numbering_arguments rest
  | .spread :: _ => by
    rw [arguments]
    exact .unsupported (by decide)

theorem numbering_properties (object : InstrId) : ∀ x : List Property, Numbering (properties object x)
  | [] => by
    rw [properties]
    exact .pure _
  | .entry key value :: rest => by
    rw [properties]
    exact .bind (.keyConst key) fun _ => .bind (numbering_expression value) fun _ => .bind (.literal _) fun _ =>
      .bind (.discard (.storeProperty _ _ _)) fun _ => numbering_properties object rest
  | .spread :: _ => by
    rw [properties]
    exact .unsupported (by decide)

theorem numbering_elements (array : InstrId) : ∀ (i : Nat) (x : List Element), Numbering (elements array i x)
  | _, [] => by
    rw [elements]
    exact .pure _
  | i, .item value :: rest => by
    rw [elements]
    exact .bind (numbering_expression value) fun _ => .bind (.literal _) fun _ =>
      .bind (.discard (.storeProperty _ _ _)) fun _ => numbering_elements array (i + 1) rest
  | i, .hole :: rest => by
    rw [elements]
    exact numbering_elements array (i + 1) rest
  | _, .spread :: _ => by
    rw [elements]
    exact .unsupported (by decide)

theorem numbering_body : ∀ x : Syntax.Body, Numbering (body x)
  | .expression value => by
    rw [body]
    exact .bind (numbering_expression value) fun _ => .ret _
  | .statements list => by
    rw [body]
    exact .bind (numbering_hoist list) fun _ => numbering_statements list

theorem numbering_hoist : ∀ list : List Stmt, Numbering (hoist list)
  | [] => by
    rw [hoist]
    exact .pure _
  | .function (.mk name ps content) :: rest => by
    rw [hoist]
    refine .bind (numbering_closure (numbering_body content)) fun _ => ?_
    cases name with
    | none => exact numbering_hoist rest
    | some name => exact .bind (.declare name _) fun _ => numbering_hoist rest
  | .expression _ :: rest => hoist_other (by simp) (numbering_hoist rest)
  | .declare _ :: rest => hoist_other (by simp) (numbering_hoist rest)
  | .ret _ :: rest => hoist_other (by simp) (numbering_hoist rest)
  | .block _ :: rest => hoist_other (by simp) (numbering_hoist rest)
  | .branch _ _ _ :: rest => hoist_other (by simp) (numbering_hoist rest)
  | .empty :: rest => hoist_other (by simp) (numbering_hoist rest)
  | .debugger :: rest => hoist_other (by simp) (numbering_hoist rest)
  | .loop :: rest => hoist_other (by simp) (numbering_hoist rest)
  | .unsupported :: rest => hoist_other (by simp) (numbering_hoist rest)

theorem numbering_statements : ∀ list : List Stmt, Numbering (statements list)
  | [] => by
    rw [statements]
    exact .pure _
  | s :: rest => by
    rw [statements]
    exact .get fun _ => .ite (.bind (numbering_statement s) fun _ => numbering_statements rest) (.pure _)

theorem numbering_statement : ∀ s : Stmt, Numbering (statement s)
  | .expression value => by
    rw [statement]
    exact .bind (numbering_expression value) fun _ => .get fun _ => .ite (.envInsert _ _) (.pure _)
  | .declare items => by
    rw [statement]
    exact numbering_declarators items
  | .ret (some value) => by
    rw [statement]
    exact .bind (numbering_expression value) fun _ => .ret _
  | .ret none => by
    rw [statement]
    exact .bind (.literal _) fun _ => .ret _
  | .block list => by
    rw [statement]
    exact .bind (numbering_hoist list) fun _ => numbering_statements list
  | .branch test yes no => by
    rw [statement]
    exact .bind (numbering_expression test) fun _ => .bind (.split _) fun _ => .get fun _ => .bind (.resume _ _) fun _ =>
      .bind (numbering_statement yes) fun _ => .bind .capture fun _ => .bind (.resume _ _) fun _ =>
      .bind (numbering_alternative no) fun _ => .bind .capture fun _ => .join _
  | .function _ => by
    rw [statement]
    exact .pure _
  | .empty => by
    rw [statement]
    exact .pure _
  | .debugger => by
    rw [statement]
    exact .discard (.build tame_emit)
  | .loop => by
    rw [statement]
    exact .unsupported (by decide)
  | .unsupported => by
    rw [statement]
    exact .unsupported (by decide)

theorem numbering_alternative : ∀ s : Option Stmt, Numbering (alternative s)
  | some s => by
    rw [alternative]
    exact numbering_statement s
  | none => by
    rw [alternative]
    exact .pure _

theorem numbering_declarators : ∀ list : List Declarator, Numbering (declarators list)
  | [] => by
    rw [declarators]
    exact .pure _
  | .mk .pattern _ :: _ => by
    rw [declarators]
    exact .unsupported (by decide)
  | .mk (.name text) (some value) :: rest => by
    rw [declarators]
    exact .bind (numbering_expression value) fun _ => .bind (.declare _ _) fun _ => numbering_declarators rest
  | .mk (.name text) none :: rest => by
    rw [declarators]
    exact .bind (.literal _) fun _ => .bind (.declare _ _) fun _ => numbering_declarators rest

end

/-! ### All graphs of a script -/

/-- Places that are all filled give their graphs. -/
theorem finish_map_some (graphs : List Graph) : finish (graphs.map some).toArray = .ok graphs := by
  have hall : ∀ check : Option Graph × Nat → Except SourceError Graph, (∀ g i, check (some g, i) = .ok g) →
      ∀ (graphs : List Graph) (n : Nat), ((graphs.map some).zipIdx n).mapM check = .ok graphs := by
    intro check hcheck graphs
    induction graphs with
    | nil => exact fun _ => rfl
    | cons g rest ih =>
      intro n
      rw [List.map_cons, List.zipIdx_cons, List.mapM_cons, ih, hcheck]
      rfl
  exact hall _ (fun _ _ => rfl) graphs 0

/-- The graphs of a script refer to each place but the first one, each once. -/
theorem closures_of_graphsOf (list : List Stmt) :
    match graphsOf list with
    | .ok graphs => (graphs.flatMap closures).Perm ((List.range' 1 (graphs.length - 1)).map reference)
    | .error e => Harmless e := by
  let start : Construction := { frame := { builder := Builder.start "" } }
  let steps : ConstructM Unit := do
    let undefined ← literal .undefined
    envInsert .completion undefined
    hoist list
    statements list
    if !(← get).frame.done then ret ((← envGet? .completion).getD undefined)
  have hnumbering : Numbering steps :=
    .bind (.literal _) fun _ => .bind (.envInsert _ _) fun _ => .bind (numbering_hoist list) fun _ =>
      .bind (numbering_statements list) fun _ => .get fun _ => .ite (.bind (.envGet? _) fun _ => .ret _) (.pure _)
  have hsteps := hnumbering { graphs := #[none], frame := { builder := Builder.start "script", topLevel := true } }
  have hreserve : reserve start = .ok 0 { start with graphs := #[none] } := rfl
  have hscript : script list start =
      inFrame 0 { builder := Builder.start "script", topLevel := true } steps { start with graphs := #[none] } :=
    bind_of_ok hreserve
  unfold graphsOf EStateM.run
  rw [hscript]
  cases hrun : steps { graphs := #[none], frame := { builder := Builder.start "script", topLevel := true } } with
  | error e t =>
    rw [hrun] at hsteps
    rw [inFrame_of_error hrun]
    exact hsteps
  | ok u t =>
    rw [hrun] at hsteps
    rw [inFrame_of_ok hrun]
    obtain ⟨new, hgraphs, hperm⟩ := spawns_inFrame (c := start) hsteps
    have hfilled : t.graphs.setIfInBounds 0 (some t.graph) = ((t.graph :: new).map some).toArray := by
      rw [← Array.toList_inj]
      exact hgraphs
    simp only
    rw [hfilled, finish_map_some]
    exact hperm

end ScriptEngine.Graph
