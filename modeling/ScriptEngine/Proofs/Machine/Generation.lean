import ScriptEngine.Engine.Machine
import ScriptEngine.Proofs.Engine.Outline
import ScriptEngine.Proofs.Meaning.World

/-!
What code generation makes of a graph, once the words of its constants are known. A word may differ
from place to place, since a constant may stand for something new at each of them; so the words are
given by instruction and place. Past the inputs of an instruction stands the word of the constant that
it needs besides.
-/

namespace ScriptEngine

open State

namespace Engine

/-! ### Answers -/

/-- `Answered resolve e log e'`: the constants of the log were asked for one after another, which led
from one state to the other. -/
inductive Answered (resolve : Const → CompileM Word) : Engine → List (Const × Word) → Engine → Prop
  | nil (e : Engine) : Answered resolve e [] e
  | cons {e e' e'' : Engine} {c : Const} {w : Word} {log : List (Const × Word)} :
    resolve c e = .ok w e' → Answered resolve e' log e'' → Answered resolve e ((c, w) :: log) e''

namespace Answered

variable {resolve : Const → CompileM Word} {e e' e'' : Engine} {log log' : List (Const × Word)}

theorem single {c : Const} {w : Word} (h : resolve c e = .ok w e') : Answered resolve e [(c, w)] e' :=
  .cons h (.nil _)

theorem append (h : Answered resolve e log e') (h' : Answered resolve e' log' e'') :
    Answered resolve e (log ++ log') e'' := by
  induction h with
  | nil => exact h'
  | cons hc _ ih => exact .cons hc (ih h')

/-- What each answer keeps, all of them keep; and an answer that was right stays right. -/
theorem holds {I : Engine → Prop} {P : Engine → Const → Word → Prop}
    (h : Answered resolve e log e') (he : I e)
    (hanswer : ∀ {c e w e'}, I e → resolve c e = .ok w e' → I e' ∧ P e' c w)
    (hkeep : ∀ {c e w e' c' w'}, I e → resolve c e = .ok w e' → P e c' w' → P e' c' w') :
    I e' ∧ ∀ c w, (c, w) ∈ log → P e' c w := by
  have hkept : ∀ {e log e' c w}, Answered resolve e log e' → I e → P e c w → P e' c w := by
    intro e log e' c w h
    induction h with
    | nil => exact fun _ hp => hp
    | cons hc _ ih => exact fun he hp => ih (hanswer he hc).1 (hkeep he hc hp)
  induction h with
  | nil => exact ⟨he, by simp⟩
  | @cons e₀ e₁ e₂ c w log hc hrest ih =>
    obtain ⟨hI, hlog⟩ := ih (hanswer he hc).1
    refine ⟨hI, fun c' w' hmem => ?_⟩
    rcases List.mem_cons.mp hmem with heq | hmem
    · cases heq
      exact hkept hrest (hanswer he hc).1 (hanswer he hc).2
    · exact hlog c' w' hmem

end Answered
end Engine

/-! ### Instructions -/

namespace Instr

/-- The operand at a place, given the words of constants. -/
def operand (i : Instr) (words : Nat → Word) (k : Nat) : Operand :=
  match i.inputs[k]? with
  | some (.value id) => .reg id
  | _ => .word (words k)

/-- The constant that the instruction needs besides its inputs. -/
def implied? (i : Instr) : Option Const :=
  match i.op with
  | .prim .arg | .prim .callStub | .prim .isUndefined => some .undefined
  | .prim .isTrue => some (.bool true)
  | _ => none

/-- The constant whose word stands at a place. -/
def constAt? (i : Instr) (k : Nat) : Option Const :=
  match i.inputs[k]? with
  | some (.const c) => some c
  | some (.value _) => none
  | none => if k = i.inputs.length then i.implied? else none

/-- The arithmetic of an instruction. -/
def arithmetic (i : Instr) (x : Nat → Operand) : Arithmetic :=
  match i.op with
  | .prim .neg => .neg (x 0)
  | .prim .add => .add (x 0) (x 1)
  | .prim .sub => .sub (x 0) (x 1)
  | _ => .mul (x 0) (x 1)

/-- The comparison at a place. -/
def condAt (i : Instr) (k : Nat) : Cond :=
  match i.inputs[k]? with
  | some (.const (.cond c)) => c
  | _ => .eq

/-- The condition that an instruction sets. -/
def condition (i : Instr) (x : Nat → Operand) : Condition :=
  match i.op with
  | .prim .isSmi => .isSmi (x 0)
  | .prim .testBits => .testBits (x 0) (.ofInt (i.rawAt 1))
  | .prim .isTrue | .prim .isUndefined => .compare .eq (x 0) (x i.inputs.length)
  | _ => .compare (i.condAt 2) (x 0) (x 1)

open Engine.Emission (fieldOffset offset32)

/-- What an instruction does, with the arguments that it takes. -/
def action (i : Instr) (x : Nat → Operand) (args : List Operand) : Action :=
  match i.op with
  | .prim .global => .global
  | .prim .receiver => .receiver
  | .prim .callee => .callee
  | .prim .read => .read (x 0) (fieldOffset (i.rawAt 1))
  | .prim .write => .write (x 0) (fieldOffset (i.rawAt 1)) (x 2)
  | .prim .readIndexed => .readIndexed (x 0) (x 1) (fieldOffset (i.rawAt 2)) (i.rawAt 3)
  | .prim .writeIndexed => .writeIndexed (x 0) (x 1) (fieldOffset (i.rawAt 2)) (i.rawAt 3) (x 4)
  | .prim .fill => .fill (x 0) (i.rawAt 1 - 1) (x 2) (x 3)
  | .prim .heapTop => .heapTop
  | .prim .heapLimit => .heapLimit
  | .prim .setHeapTop => .setHeapTop (x 0)
  | .prim .alignSize => .alignSize (x 0)
  | .prim .arg => .arg (i.rawAt 0) (Engine.Machine.eval ∅ (x i.inputs.length))
  | .prim .stubArg | .prim .cacheArg => .bareArg (offset32 (i.rawAt 0 * 8))
  | .prim .untag => .untag (x 0)
  | .prim .tag => .tag (x 0)
  | .prim .pointer => .pointer (x 0)
  | .prim .addBare => .addBare (x 0) (x 1)
  | .prim .neg | .prim .add | .prim .sub | .prim .mul => .arithmetic (i.arithmetic x)
  | .prim .call => .call (x 0) (x 1) args (i.rawAt 2)
  | .prim .callStub => .call (x 0) (x i.inputs.length) args (i.rawAt 1)
  | .prim .trap => .trap
  | _ => .move (x 0)

end Instr

/-- Operations with a result that neither change the state of code generation nor look at it. -/
def PrimOp.isValue : PrimOp → Bool
  | .literal | .code | .global | .receiver | .callee | .read | .readIndexed | .heapTop | .heapLimit
  | .alignSize | .arg | .stubArg | .cacheArg | .untag | .tag | .pointer | .addBare => true
  | _ => false

/-- Operations that only change the machine. -/
def PrimOp.isEffect : PrimOp → Bool
  | .trap | .write | .writeIndexed | .fill | .setHeapTop => true
  | _ => false

/-- Operations that set the condition by their operands. -/
def PrimOp.isTest : PrimOp → Bool
  | .isTrue | .isUndefined | .isSmi | .compareSmi | .comparePointer | .testBits => true
  | _ => false

namespace Engine

namespace Emission

/-- The state of code generation without the pointers that it met. -/
def bare (s : Emission) : Emission := { s with record := { name := "" } }

/-- The state after an instruction whose result stands in a register. -/
def define (s : Emission) (id : InstrId) : Emission := { s with defined := s.defined.insert id }

end Emission

/-- `Generates i x s emitted s'`: what code generation makes of an instruction whose operands are known,
but for the pointers that it met. -/
inductive Generates (i : Instr) (x : Nat → Operand) (s : Emission) : Emitted → Emission → Prop
  | value {op : PrimOp} : i.op = .prim op → op.isValue = true → Generates i x s (.value (i.action x [])) s
  | effect {op : PrimOp} : i.op = .prim op → op.isEffect = true →
    Generates i x s (.effect (i.action x [])) s
  | arithmetic : i.isArithmetic = true →
    Generates i x s (.value (.arithmetic (i.arithmetic x))) { s with lastArithmetic := some (i.arithmetic x) }
  | parameter : i.op = .prim .phi → Generates i x s .nothing s
  | pass {phi : InstrId} : i.passTarget? = some phi →
    Generates i x s .nothing { s with phiArgs := (phi, x 1) :: s.phiArgs }
  | openArea {argc : Int} {count : Nat} {hasRoom : Bool} : i.op = .prim .openArea → i.rawInput 0 = .ok argc →
    (0 ≤ argc → count = argc.toNat) →
    Generates i x s .nothing { s with areas := { hasRoom, missing := count } :: s.areas }
  | push {area : ArgumentArea} {outer : List ArgumentArea} {missing : Nat} : i.op = .prim .push →
    s.areas = area :: outer → area.missing = missing + 1 →
    Generates i x s .nothing
      { s with areas := { area with missing, args := x 0 :: area.args } :: outer }
  | call {area : ArgumentArea} {outer : List ArgumentArea} : i.op = .prim .call ∨ i.op = .prim .callStub →
    s.areas = area :: outer → area.missing = 0 →
    Generates i x s (.value (i.action x area.args)) { s with areas := outer }
  | forward : i.op = .prim .forward →
    Generates i x s .nothing { s with forwarded := some (x 0, i.rawAt 1) }
  | forwardCall {argc : Operand} {start : Int} : i.op = .prim .forwardCall → s.forwarded = some (argc, start) →
    Generates i x s (.value (.forwardCall (x 0) (x 1) argc start)) { s with forwarded := none }
  | test {op : PrimOp} : i.op = .prim op → op.isTest = true →
    Generates i x s .nothing { s with condition := some (i.condition x) }
  | overflowed {op : Arithmetic} : i.op = .prim .overflowed → s.lastArithmetic = some op →
    Generates i x s .nothing { s with lastArithmetic := none, condition := some (.overflow op) }
  | ret : i.op = .prim .ret ∨ i.op = .prim .cacheRet → Generates i x s (.exit (.ret (x 0))) s
  | tailCall : i.op = .prim .tailCall → Generates i x s (.exit (.tailCall (x 0))) s

namespace Emission

variable {α β : Type} {scope : EmissionScope} {i : Instr} {s s' : Emission} {e e' : Engine}

theorem bind_eq_ok {act : EmitM α} {f : α → EmitM β} {b : β} :
    (act >>= f) s e = .ok (b, s') e' ↔
      ∃ a t e₁, act s e = .ok (a, t) e₁ ∧ f a t e₁ = .ok (b, s') e' := by
  change (act s >>= fun r => f r.1 r.2) e = .ok (b, s') e' ↔ _
  rw [State.bind_eq_ok]
  exact ⟨fun ⟨⟨a, t⟩, e₁, h⟩ => ⟨a, t, e₁, h⟩, fun ⟨a, t, e₁, h⟩ => ⟨(a, t), e₁, h⟩⟩

theorem pure_eq_ok {a b : α} :
    (pure a : EmitM α) s e = .ok (b, s') e' ↔ a = b ∧ s = s' ∧ e = e' := by
  change (pure (a, s) : CompileM _) e = .ok (b, s') e' ↔ _
  rw [State.pure_eq_ok, Prod.mk.injEq, and_assoc]

theorem get_eq_ok {t : Emission} :
    (get : EmitM Emission) s e = .ok (t, s') e' ↔ s = t ∧ s = s' ∧ e = e' := by
  change (pure (s, s) : CompileM _) e = .ok (t, s') e' ↔ _
  rw [State.pure_eq_ok, Prod.mk.injEq, and_assoc]

theorem modify_eq_ok {f : Emission → Emission} {u : PUnit} :
    (modify f : EmitM PUnit) s e = .ok (u, s') e' ↔ f s = s' ∧ e = e' := by
  change (pure (PUnit.unit, f s) : CompileM _) e = .ok (u, s') e' ↔ _
  rw [State.pure_eq_ok, Prod.mk.injEq]
  simp

theorem fail_eq_ok {operation reason : String} {a : α} :
    (fail operation reason : EmitM α) s e = .ok (a, s') e' ↔ False := by
  change (throw _ : CompileM _) e = .ok (a, s') e' ↔ False
  exact State.throw_eq_ok

theorem ask_eq_ok {question : Except GraphError α} {a : α} :
    (ask question : EmitM α) s e = .ok (a, s') e' ↔ question = .ok a ∧ s = s' ∧ e = e' := by
  cases question with
  | ok b => simp [ask, pure_eq_ok]
  | error err =>
    simp only [ask, reduceCtorEq, false_and, iff_false]
    exact fun h => State.throw_eq_ok.mp h

theorem ask_bind_eq_ok {question : Except GraphError α} {f : α → EmitM β} {b : β} :
    (ask question >>= f) s e = .ok (b, s') e' ↔
      ∃ a, question = .ok a ∧ f a s e = .ok (b, s') e' := by
  rw [bind_eq_ok]
  constructor
  · rintro ⟨a, t, e₁, hask, hrest⟩
    obtain ⟨hquestion, rfl, rfl⟩ := ask_eq_ok.mp hask
    exact ⟨a, hquestion, hrest⟩
  · rintro ⟨a, hquestion, hrest⟩
    exact ⟨a, s, e, ask_eq_ok.mpr ⟨hquestion, rfl, rfl⟩, hrest⟩

theorem constant_ok {c : Const} {w : Word} (h : constant scope c s e = .ok (w, s') e') :
    Answered scope.resolve e [(c, w)] e' ∧ s'.bare = s.bare := by
  unfold constant at h
  obtain ⟨w', t, e₁, hresolve, hrest⟩ := bind_eq_ok.mp h
  have hanswer : scope.resolve c e = .ok w' e₁ ∧ t = s := by
    change (scope.resolve c >>= fun a => pure (a, s)) e = .ok (w', t) e₁ at hresolve
    obtain ⟨a, e₂, hok, hpure⟩ := State.bind_eq_ok.mp hresolve
    obtain ⟨heq, rfl⟩ := State.pure_eq_ok.mp hpure
    cases heq
    exact ⟨hok, rfl⟩
  obtain ⟨hok, rfl⟩ := hanswer
  suffices w' = w ∧ e₁ = e' ∧ s'.bare = t.bare by
    obtain ⟨rfl, rfl, hbare⟩ := this
    exact ⟨.single hok, hbare⟩
  split at hrest
  · obtain ⟨rfl, rfl, rfl⟩ := pure_eq_ok.mp hrest
    exact ⟨rfl, rfl, rfl⟩
  · obtain ⟨_, _, _, hmodify, hpure⟩ := bind_eq_ok.mp hrest
    obtain ⟨rfl, rfl⟩ := modify_eq_ok.mp hmodify
    obtain ⟨rfl, rfl, rfl⟩ := pure_eq_ok.mp hpure
    exact ⟨rfl, rfl, rfl⟩
  · split at hrest
    · obtain ⟨_, _, _, hmodify, hpure⟩ := bind_eq_ok.mp hrest
      obtain ⟨rfl, rfl⟩ := modify_eq_ok.mp hmodify
      obtain ⟨rfl, rfl, rfl⟩ := pure_eq_ok.mp hpure
      exact ⟨rfl, rfl, rfl⟩
    · obtain ⟨rfl, rfl, rfl⟩ := pure_eq_ok.mp hrest
      exact ⟨rfl, rfl, rfl⟩

theorem operand_ok {k : Nat} {x : Operand} (h : operand scope i k s e = .ok (x, s') e') :
    k < i.inputs.length ∧ s'.bare = s.bare ∧ ∃ w log, Answered scope.resolve e log e' ∧
      (∀ words : Nat → Word, words k = w → x = i.operand words k) ∧
      (∀ c, i.constAt? k = some c → (c, w) ∈ log) ∧
      ∀ id, i.inputs[k]? = some (.value id) → s.defined.contains id = true := by
  unfold operand at h
  obtain ⟨input, hinput, hrest⟩ := ask_bind_eq_ok.mp h
  have hget : i.inputs[k]? = some input := by
    unfold Instr.input at hinput
    split at hinput
    · rename_i found hfound
      cases hinput
      exact hfound
    · cases hinput
  refine ⟨(List.getElem?_eq_some_iff.mp hget).1, ?_⟩
  cases input with
  | value id =>
    obtain ⟨_, _, _, hget', hdefined⟩ := bind_eq_ok.mp hrest
    obtain ⟨rfl, rfl, rfl⟩ := get_eq_ok.mp hget'
    split at hdefined
    · rename_i hcontains
      obtain ⟨rfl, rfl, rfl⟩ := pure_eq_ok.mp hdefined
      refine ⟨rfl, default, [], .nil _, fun words _ => ?_, fun c hc => ?_, fun id' hid => ?_⟩
      · rw [Instr.operand, hget]
      · simp [Instr.constAt?, hget] at hc
      · rw [hget] at hid
        cases hid
        exact hcontains
    · exact (fail_eq_ok.mp hdefined).elim
  | const c =>
    obtain ⟨w, t', e₂, hconstant, hpure⟩ := bind_eq_ok.mp hrest
    obtain ⟨hanswered, hbare⟩ := constant_ok hconstant
    obtain ⟨rfl, rfl, rfl⟩ := pure_eq_ok.mp hpure
    refine ⟨hbare, w, _, hanswered, fun words hw => ?_, fun c' hc => ?_, fun id hid => ?_⟩
    · rw [Instr.operand, hget, hw]
    · simp only [Instr.constAt?, hget, Option.some.injEq] at hc
      simp [hc]
    · rw [hget] at hid
      cases hid

/-- The operands at some places are known, and nothing else has happened. -/
def Collects (scope : EmissionScope) (i : Instr) (s : Emission) (e : Engine) (s' : Emission) (e' : Engine)
    (known : List (Nat × Operand)) : Prop :=
  s'.bare = s.bare ∧ ∃ words log, Answered scope.resolve e log e' ∧ ∀ k x, (k, x) ∈ known →
    x = i.operand words k ∧ (∀ c, i.constAt? k = some c → (c, words k) ∈ log) ∧
    ∀ id, i.inputs[k]? = some (.value id) → s.defined.contains id = true

theorem Collects.nil : Collects scope i s e s e [] :=
  ⟨rfl, fun _ => default, [], .nil _, by simp⟩

theorem Collects.cons {known : List (Nat × Operand)} {t : Emission} {e₁ : Engine} {k : Nat} {x : Operand}
    {w : Word} {log : List (Const × Word)} (h : Collects scope i s e t e₁ known) (hk : ∀ y, (k, y) ∉ known)
    (hbare : s'.bare = t.bare) (hanswered : Answered scope.resolve e₁ log e')
    (hx : ∀ words : Nat → Word, words k = w → x = i.operand words k)
    (hc : ∀ c, i.constAt? k = some c → (c, w) ∈ log)
    (hdefined : ∀ id, i.inputs[k]? = some (.value id) → t.defined.contains id = true) :
    Collects scope i s e s' e' ((k, x) :: known) := by
  obtain ⟨hsame, words, before, hbefore, hknown⟩ := h
  have hset : t.bare.defined = s.bare.defined := by rw [hsame]
  refine ⟨hbare.trans hsame, fun j => if j = k then w else words j, before ++ log,
    hbefore.append hanswered, fun j y hy => ?_⟩
  rcases List.mem_cons.mp hy with heq | hmem
  · cases heq
    refine ⟨hx _ (by simp), fun c hconst => ?_, fun id hid => hset ▸ hdefined id hid⟩
    simp [hc c hconst]
  · have hne : j ≠ k := by
      rintro rfl
      exact hk y hmem
    obtain ⟨rfl, hconst, hdef⟩ := hknown j y hmem
    refine ⟨by simp [Instr.operand, hne], fun c hc => ?_, hdef⟩
    simp [hne, hconst c hc]

theorem Collects.operand {known : List (Nat × Operand)} {t : Emission} {e₁ : Engine} {k : Nat}
    {x : Operand} (h : Collects scope i s e t e₁ known)
    (hok : Emission.operand scope i k t e₁ = .ok (x, s') e') (hk : ∀ y, (k, y) ∉ known) :
    Collects scope i s e s' e' ((k, x) :: known) := by
  obtain ⟨-, hbare, w, log, hanswered, hx, hc, hdefined⟩ := operand_ok hok
  exact h.cons hk hbare hanswered hx hc hdefined

theorem operand_lt {k : Nat} {f : Operand → EmitM β} {b : β}
    (h : (operand scope i k >>= f) s e = .ok (b, s') e') : k < i.inputs.length := by
  obtain ⟨x, _, _, hx, -⟩ := bind_eq_ok.mp h
  exact (operand_ok hx).1

theorem Collects.operand_bind {known : List (Nat × Operand)} {t : Emission} {e₁ : Engine} {k : Nat}
    {f : Operand → EmitM β} {b : β} (h : Collects scope i s e t e₁ known)
    (hok : (Emission.operand scope i k >>= f) t e₁ = .ok (b, s') e') (hk : ∀ y, (k, y) ∉ known) :
    ∃ x t' e₂, Collects scope i s e t' e₂ ((k, x) :: known) ∧ f x t' e₂ = .ok (b, s') e' := by
  obtain ⟨x, t', e₂, hx, hrest⟩ := bind_eq_ok.mp hok
  exact ⟨x, t', e₂, h.operand hx hk, hrest⟩

/-- The constant that an instruction needs besides may be asked for at any time. -/
theorem Collects.implied {known : List (Nat × Operand)} {t u u' : Emission} {e₁ : Engine} {c : Const}
    {w : Word} (h : Collects scope i s e t e₁ known) (hc : i.implied? = some c)
    (hok : constant scope c u e₁ = .ok (w, u') e') (hk : ∀ y, (i.inputs.length, y) ∉ known) :
    u'.bare = u.bare ∧ Collects scope i s e t e' ((i.inputs.length, .word w) :: known) := by
  obtain ⟨hanswered, hbare⟩ := constant_ok hok
  have hnone : i.inputs[i.inputs.length]? = none := by simp
  refine ⟨hbare, h.cons (w := w) hk rfl hanswered (fun words hw => ?_) (fun c' hc' => ?_) fun id hid => ?_⟩
  · rw [Instr.operand, hnone, hw]
  · simp only [Instr.constAt?, hnone, if_pos, hc, Option.some.injEq] at hc'
    simp [hc']
  · rw [hnone] at hid
    cases hid

end Emission

/-- The words that code generation got at the places of an instruction. -/
def Named (i : Instr) (words : Nat → Word) (log : List (Const × Word)) : Prop :=
  ∀ op : PrimOp, i.op = .prim op → ∀ (k : Nat) (c : Const), op.roles[k]? = some Role.operand ∨ k = i.inputs.length →
    i.constAt? k = some c → (c, words k) ∈ log

/-- Whether the results that an instruction takes as operands exist. -/
def Supplied (i : Instr) (s : Emission) : Prop :=
  ∀ op : PrimOp, i.op = .prim op → ∀ (k : Nat) (id : InstrId), op.roles[k]? = some Role.operand →
    i.inputs[k]? = some (Input.value id) → s.defined.contains id = true

end Engine

namespace Engine.Emission

variable {scope : EmissionScope} {i : Instr} {s s' t : Emission} {e e' : Engine} {op : PrimOp}
  {known : List (Nat × Operand)} {emitted : Emitted}

/-- What code generation makes of an instruction, when all of its operands are known. -/
theorem Collects.generates (h : Collects scope i s e t e' known) (hop : i.op = .prim op)
    (hall : ∀ k, op.roles[k]? = some .operand → ∃ y, (k, y) ∈ known)
    (himplied : i.implied? = none ∨ ∃ y, (i.inputs.length, y) ∈ known)
    (hgen : ∀ x : Nat → Operand, (∀ k y, (k, y) ∈ known → x k = y) →
      Generates i x t.bare emitted s'.bare) :
    Supplied i s ∧ ∃ words log, Answered scope.resolve e log e' ∧ Named i words log ∧
      Generates i (i.operand words) s.bare emitted s'.bare := by
  obtain ⟨hbare, words, log, hanswered, hknown⟩ := h
  rw [hbare] at hgen
  refine ⟨fun op' hop' k id hrole hid => ?_, words, log, hanswered, fun op' hop' k c hk hc => ?_, ?_⟩
  · cases hop.symm.trans hop'
    obtain ⟨y, hy⟩ := hall k hrole
    exact (hknown k y hy).2.2 id hid
  · cases hop.symm.trans hop'
    rcases hk with hrole | rfl
    · obtain ⟨y, hy⟩ := hall k hrole
      exact (hknown k y hy).2.1 c hc
    · rcases himplied with hnone | ⟨y, hy⟩
      · simp [Instr.constAt?, hnone] at hc
      · exact (hknown _ y hy).2.1 c hc
  · exact hgen _ fun k y hy => ((hknown k y hy).1).symm

theorem closeArea_ok {operation : String} {argc : Int} {args : List Operand}
    (h : closeArea operation argc s e = .ok (args, s') e') : ∃ area outer,
      s.areas = area :: outer ∧ area.missing = 0 ∧ args = area.args ∧ s' = { s with areas := outer } ∧ e' = e := by
  unfold closeArea at h
  obtain ⟨_, _, _, hget, hrest⟩ := bind_eq_ok.mp h
  obtain ⟨rfl, rfl, rfl⟩ := get_eq_ok.mp hget
  generalize hareas : s.areas = areas at hrest
  cases areas with
  | nil => exact (fail_eq_ok.mp hrest).elim
  | cons area outer =>
    obtain ⟨_, _, _, hmodify, hrest⟩ := bind_eq_ok.mp hrest
    obtain ⟨rfl, rfl⟩ := modify_eq_ok.mp hmodify
    beta_reduce at hrest
    split at hrest
    · obtain ⟨_, _, _, hfail, -⟩ := bind_eq_ok.mp hrest
      exact (fail_eq_ok.mp hfail).elim
    · rename_i hmissing
      obtain ⟨rfl, rfl, rfl⟩ := pure_eq_ok.mp hrest
      exact ⟨area, outer, rfl, by simpa using hmissing, rfl, rfl, rfl⟩

theorem openArea_ok {argc : Int} {u : Unit} (h : openArea argc s e = .ok (u, s') e') : ∃ hasRoom count,
    (0 ≤ argc → count = argc.toNat) ∧ s' = { s with areas := { hasRoom, missing := count } :: s.areas } ∧ e' = e := by
  obtain ⟨rfl, rfl⟩ := modify_eq_ok.mp h
  exact ⟨_, _, fun h0 => if_neg (by omega), rfl, rfl⟩

theorem push_ok {value : Operand} {u : Unit} (h : push value s e = .ok (u, s') e') : ∃ area outer missing,
    s.areas = area :: outer ∧ area.missing = missing + 1 ∧
      s' = { s with areas := { area with missing, args := value :: area.args } :: outer } ∧ e' = e := by
  unfold push at h
  obtain ⟨_, _, _, hget, hrest⟩ := bind_eq_ok.mp h
  obtain ⟨rfl, rfl, rfl⟩ := get_eq_ok.mp hget
  generalize hareas : s.areas = areas at hrest
  cases areas with
  | nil => exact (fail_eq_ok.mp hrest).elim
  | cons area outer =>
    simp only at hrest
    split at hrest
    · rename_i hroom
      obtain ⟨rfl, rfl⟩ := modify_eq_ok.mp hrest
      exact ⟨area, outer, area.missing - 1, rfl, by omega, rfl, rfl⟩
    · exact (fail_eq_ok.mp hrest).elim

theorem setCondition_ok {condition : Condition} (h : setCondition condition s e = .ok (emitted, s') e') :
    emitted = .nothing ∧ s' = { s with condition := some condition } ∧ e' = e := by
  obtain ⟨_, _, _, hmodify, hpure⟩ := bind_eq_ok.mp h
  obtain ⟨rfl, rfl⟩ := modify_eq_ok.mp hmodify
  obtain ⟨rfl, rfl, rfl⟩ := pure_eq_ok.mp hpure
  exact ⟨rfl, rfl, rfl⟩

theorem arithmetic_ok {op : Arithmetic} (h : arithmetic op s e = .ok (emitted, s') e') :
    emitted = .value (.arithmetic op) ∧ s' = { s with lastArithmetic := some op } ∧ e' = e := by
  obtain ⟨_, _, _, hmodify, hpure⟩ := bind_eq_ok.mp h
  obtain ⟨rfl, rfl⟩ := modify_eq_ok.mp hmodify
  obtain ⟨rfl, rfl, rfl⟩ := pure_eq_ok.mp hpure
  exact ⟨rfl, rfl, rfl⟩

theorem compareInput_ok {k : Nat} {c : Cond} (h : compareInput i k s e = .ok (c, s') e') :
    i.condAt k = c ∧ s' = s ∧ e' = e := by
  obtain ⟨found, _, _, hask, hrest⟩ := bind_eq_ok.mp h
  obtain ⟨hconst, rfl, rfl⟩ := ask_eq_ok.mp hask
  unfold Instr.constInput at hconst
  split at hconst
  · rename_i hget
    cases hconst
    split at hrest
    · obtain ⟨rfl, rfl, rfl⟩ := pure_eq_ok.mp hrest
      simp [Instr.condAt, hget]
    · exact (fail_eq_ok.mp hrest).elim
  · cases hconst

/-- What code generation makes of a primitive instruction that passes its checks. -/
theorem primitive_generates (hop : i.op = .prim op)
    (h : primitive scope i op s e = .ok (emitted, s') e') :
    Supplied i s ∧ ∃ words log, Answered scope.resolve e log e' ∧ Named i words log ∧
      Generates i (i.operand words) s.bare emitted s'.bare := by
  have hraw : ∀ {k : Nat} {n : Int}, i.rawInput k = .ok n → i.rawAt k = n := Instr.rawAt_of_rawInput
  have hstart : Collects scope i s e s e [] := .nil
  cases op
  case global | receiver | callee | heapTop | heapLimit | trap =>
    obtain ⟨rfl, rfl, rfl⟩ := pure_eq_ok.mp h
    refine hstart.generates hop ?_ (.inl ?_) fun x hx => ?_
    · simp [PrimOp.roles]
    · simp [Instr.implied?, hop]
    · first
        | simpa [Instr.action, hop] using Generates.value (i := i) (x := x) hop rfl
        | simpa [Instr.action, hop] using Generates.effect (i := i) (x := x) hop rfl
  case literal | code | setHeapTop | alignSize | untag | tag | pointer =>
    obtain ⟨a, _, _, hc, hpure⟩ := hstart.operand_bind h (by simp)
    obtain ⟨rfl, rfl, rfl⟩ := pure_eq_ok.mp hpure
    refine hc.generates hop ?_ (.inl ?_) fun x hx => ?_
    · rintro (_ | k) hk <;> simp_all [PrimOp.roles]
    · simp [Instr.implied?, hop]
    · obtain rfl := hx 0 a (by simp)
      first
        | simpa [Instr.action, hop] using Generates.value (i := i) (x := x) hop rfl
        | simpa [Instr.action, hop] using Generates.effect (i := i) (x := x) hop rfl
  case addBare =>
    obtain ⟨a, _, _, hc, hrest⟩ := hstart.operand_bind h (by simp)
    obtain ⟨b, _, _, hc, hpure⟩ := hc.operand_bind hrest (by simp)
    obtain ⟨rfl, rfl, rfl⟩ := pure_eq_ok.mp hpure
    refine hc.generates hop ?_ (.inl ?_) fun x hx => ?_
    · rintro (_ | _ | k) hk <;> simp_all [PrimOp.roles]
    · simp [Instr.implied?, hop]
    · obtain rfl := hx 0 a (by simp)
      obtain rfl := hx 1 b (by simp)
      simpa [Instr.action, hop] using Generates.value (i := i) (x := x) hop rfl
  case stubArg | cacheArg =>
    obtain ⟨n, hn, hpure⟩ := ask_bind_eq_ok.mp h
    obtain ⟨rfl, rfl, rfl⟩ := pure_eq_ok.mp hpure
    refine hstart.generates hop ?_ (.inl ?_) fun x hx => ?_
    · rintro (_ | k) hk <;> simp_all [PrimOp.roles]
    · simp [Instr.implied?, hop]
    · simpa [Instr.action, hop, hraw hn] using Generates.value (i := i) (x := x) hop rfl
  case arg =>
    obtain ⟨n, hn, hrest⟩ := ask_bind_eq_ok.mp h
    obtain ⟨w, _, _, hw, hpure⟩ := bind_eq_ok.mp hrest
    obtain ⟨rfl, rfl, rfl⟩ := pure_eq_ok.mp hpure
    obtain ⟨hbare, hc⟩ := hstart.implied (c := .undefined) (by simp [Instr.implied?, hop]) hw (by simp)
    refine hc.generates hop ?_ (.inr ⟨.word w, by simp⟩) fun x hx => ?_
    · rintro (_ | k) hk <;> simp_all [PrimOp.roles]
    · have habsent : x i.inputs.length = .word w := hx _ _ (List.mem_singleton_self _)
      rw [hbare]
      simpa [Instr.action, hop, hraw hn, habsent, Machine.eval] using
        Generates.value (i := i) (x := x) hop rfl
  case read =>
    obtain ⟨a, _, _, hc, hrest⟩ := hstart.operand_bind h (by simp)
    obtain ⟨n, hn, hpure⟩ := ask_bind_eq_ok.mp hrest
    obtain ⟨rfl, rfl, rfl⟩ := pure_eq_ok.mp hpure
    refine hc.generates hop ?_ (.inl ?_) fun x hx => ?_
    · rintro (_ | _ | k) hk <;> simp_all [PrimOp.roles]
    · simp [Instr.implied?, hop]
    · obtain rfl := hx 0 a (by simp)
      simpa [Instr.action, hop, hraw hn] using Generates.value (i := i) (x := x) hop rfl
  case write =>
    obtain ⟨a, _, _, hc, hrest⟩ := hstart.operand_bind h (by simp)
    obtain ⟨n, hn, hrest⟩ := ask_bind_eq_ok.mp hrest
    obtain ⟨b, _, _, hc, hpure⟩ := hc.operand_bind hrest (by simp)
    obtain ⟨rfl, rfl, rfl⟩ := pure_eq_ok.mp hpure
    refine hc.generates hop ?_ (.inl ?_) fun x hx => ?_
    · rintro (_ | _ | _ | k) hk <;> simp_all [PrimOp.roles]
    · simp [Instr.implied?, hop]
    · obtain rfl := hx 0 a (by simp)
      obtain rfl := hx 2 b (by simp)
      simpa [Instr.action, hop, hraw hn] using Generates.effect (i := i) (x := x) hop rfl
  case readIndexed =>
    obtain ⟨a, _, _, hc, hrest⟩ := hstart.operand_bind h (by simp)
    obtain ⟨b, _, _, hc, hrest⟩ := hc.operand_bind hrest (by simp)
    obtain ⟨n, hn, hrest⟩ := ask_bind_eq_ok.mp hrest
    obtain ⟨m, hm, hpure⟩ := ask_bind_eq_ok.mp hrest
    obtain ⟨rfl, rfl, rfl⟩ := pure_eq_ok.mp hpure
    refine hc.generates hop ?_ (.inl ?_) fun x hx => ?_
    · rintro (_ | _ | _ | _ | k) hk <;> simp_all [PrimOp.roles]
    · simp [Instr.implied?, hop]
    · obtain rfl := hx 0 a (by simp)
      obtain rfl := hx 1 b (by simp)
      simpa [Instr.action, hop, hraw hn, hraw hm] using Generates.value (i := i) (x := x) hop rfl
  case writeIndexed =>
    obtain ⟨a, _, _, hc, hrest⟩ := hstart.operand_bind h (by simp)
    obtain ⟨b, _, _, hc, hrest⟩ := hc.operand_bind hrest (by simp)
    obtain ⟨n, hn, hrest⟩ := ask_bind_eq_ok.mp hrest
    obtain ⟨m, hm, hrest⟩ := ask_bind_eq_ok.mp hrest
    obtain ⟨c, _, _, hc, hpure⟩ := hc.operand_bind hrest (by simp)
    obtain ⟨rfl, rfl, rfl⟩ := pure_eq_ok.mp hpure
    refine hc.generates hop ?_ (.inl ?_) fun x hx => ?_
    · rintro (_ | _ | _ | _ | _ | k) hk <;> simp_all [PrimOp.roles]
    · simp [Instr.implied?, hop]
    · obtain rfl := hx 0 a (by simp)
      obtain rfl := hx 1 b (by simp)
      obtain rfl := hx 4 c (by simp)
      simpa [Instr.action, hop, hraw hn, hraw hm] using Generates.effect (i := i) (x := x) hop rfl
  case fill =>
    obtain ⟨a, _, _, hc, hrest⟩ := hstart.operand_bind h (by simp)
    obtain ⟨n, hn, hrest⟩ := ask_bind_eq_ok.mp hrest
    obtain ⟨b, _, _, hc, hrest⟩ := hc.operand_bind hrest (by simp)
    obtain ⟨c, _, _, hc, hpure⟩ := hc.operand_bind hrest (by simp)
    obtain ⟨rfl, rfl, rfl⟩ := pure_eq_ok.mp hpure
    refine hc.generates hop ?_ (.inl ?_) fun x hx => ?_
    · rintro (_ | _ | _ | _ | k) hk <;> simp_all [PrimOp.roles]
    · simp [Instr.implied?, hop]
    · obtain rfl := hx 0 a (by simp)
      obtain rfl := hx 2 b (by simp)
      obtain rfl := hx 3 c (by simp)
      simpa [Instr.action, hop, hraw hn] using Generates.effect (i := i) (x := x) hop rfl
  case ret | cacheRet | tailCall =>
    obtain ⟨a, _, _, hc, hpure⟩ := hstart.operand_bind h (by simp)
    obtain ⟨rfl, rfl, rfl⟩ := pure_eq_ok.mp hpure
    refine hc.generates hop ?_ (.inl ?_) fun x hx => ?_
    · rintro (_ | k) hk <;> simp_all [PrimOp.roles]
    · simp [Instr.implied?, hop]
    · obtain rfl := hx 0 a (by simp)
      first
        | exact .ret (by simp [hop])
        | exact .tailCall hop
  case phi =>
    obtain ⟨rfl, rfl, rfl⟩ := pure_eq_ok.mp h
    refine hstart.generates hop ?_ (.inl ?_) fun x hx => .parameter hop
    · simp [PrimOp.roles]
    · simp [Instr.implied?, hop]
  case toPhi =>
    obtain ⟨phi, hphi, hrest⟩ := ask_bind_eq_ok.mp h
    obtain ⟨a, _, _, hc, hrest⟩ := hstart.operand_bind hrest (by simp)
    obtain ⟨_, _, _, hmodify, hpure⟩ := bind_eq_ok.mp hrest
    obtain ⟨rfl, rfl⟩ := modify_eq_ok.mp hmodify
    obtain ⟨rfl, rfl, rfl⟩ := pure_eq_ok.mp hpure
    refine hc.generates hop ?_ (.inl ?_) fun x hx => ?_
    · rintro (_ | _ | k) hk <;> simp_all [PrimOp.roles]
    · simp [Instr.implied?, hop]
    · obtain rfl := hx 1 a (by simp)
      refine .pass ?_
      unfold Instr.valueInput at hphi
      split at hphi
      · rename_i id hget
        cases hphi
        simp [Instr.passTarget?, hop, List.head?_eq_getElem?, hget, Input.value?]
      · cases hphi
  case openArea =>
    obtain ⟨n, hn, hrest⟩ := ask_bind_eq_ok.mp h
    obtain ⟨_, _, _, hopen, hpure⟩ := bind_eq_ok.mp hrest
    obtain ⟨hasRoom, count, hcount, rfl, rfl⟩ := openArea_ok hopen
    obtain ⟨rfl, rfl, rfl⟩ := pure_eq_ok.mp hpure
    refine hstart.generates hop ?_ (.inl ?_) fun x hx => .openArea hop hn hcount
    · rintro (_ | k) hk <;> simp_all [PrimOp.roles]
    · simp [Instr.implied?, hop]
  case push =>
    obtain ⟨a, _, _, hc, hrest⟩ := hstart.operand_bind h (by simp)
    obtain ⟨_, _, _, hpush, hpure⟩ := bind_eq_ok.mp hrest
    obtain ⟨area, outer, missing, hareas, hmissing, rfl, rfl⟩ := push_ok hpush
    obtain ⟨rfl, rfl, rfl⟩ := pure_eq_ok.mp hpure
    refine hc.generates hop ?_ (.inl ?_) fun x hx => ?_
    · rintro (_ | k) hk <;> simp_all [PrimOp.roles]
    · simp [Instr.implied?, hop]
    · obtain rfl := hx 0 a (by simp)
      exact .push hop hareas hmissing
  case call =>
    obtain ⟨a, _, _, hc, hrest⟩ := hstart.operand_bind h (by simp)
    obtain ⟨b, _, _, hc, hrest⟩ := hc.operand_bind hrest (by simp)
    obtain ⟨n, hn, hrest⟩ := ask_bind_eq_ok.mp hrest
    obtain ⟨args, _, _, hclose, hpure⟩ := bind_eq_ok.mp hrest
    obtain ⟨area, outer, hareas, hmissing, rfl, rfl, rfl⟩ := closeArea_ok hclose
    obtain ⟨rfl, rfl, rfl⟩ := pure_eq_ok.mp hpure
    refine hc.generates hop ?_ (.inl ?_) fun x hx => ?_
    · rintro (_ | _ | _ | k) hk <;> simp_all [PrimOp.roles]
    · simp [Instr.implied?, hop]
    · obtain rfl := hx 0 a (by simp)
      obtain rfl := hx 1 b (by simp)
      simpa [Instr.action, hop, hraw hn, bare] using
        Generates.call (i := i) (x := x) (s := Emission.bare _) (.inl hop) hareas hmissing
  case callStub =>
    have hlength : i.inputs.length ≠ 0 := Nat.ne_of_gt (operand_lt h)
    obtain ⟨a, _, _, hc, hrest⟩ := hstart.operand_bind h (by simp)
    obtain ⟨n, hn, hrest⟩ := ask_bind_eq_ok.mp hrest
    obtain ⟨args, t, _, hclose, hundefined⟩ := bind_eq_ok.mp hrest
    obtain ⟨area, outer, hareas, hmissing, rfl, rfl, rfl⟩ := closeArea_ok hclose
    obtain ⟨w, _, _, hw, hpure⟩ := bind_eq_ok.mp hundefined
    obtain ⟨rfl, rfl, rfl⟩ := pure_eq_ok.mp hpure
    obtain ⟨hbare, hc⟩ := hc.implied (c := .undefined) (by simp [Instr.implied?, hop]) hw
      (by simp [hlength])
    refine hc.generates hop ?_ (.inr ⟨.word w, by simp⟩) fun x hx => ?_
    · rintro (_ | _ | k) hk <;> simp_all [PrimOp.roles]
    · obtain rfl := hx 0 a (by simp)
      have hreceiver : x i.inputs.length = .word w := hx _ _ (by simp)
      rw [hbare]
      simpa [Instr.action, hop, hraw hn, hreceiver, bare] using
        Generates.call (i := i) (x := x) (s := Emission.bare _) (.inr hop) hareas hmissing
  case forward =>
    obtain ⟨a, _, _, hc, hrest⟩ := hstart.operand_bind h (by simp)
    obtain ⟨n, hn, hrest⟩ := ask_bind_eq_ok.mp hrest
    obtain ⟨_, _, _, hmodify, hpure⟩ := bind_eq_ok.mp hrest
    obtain ⟨rfl, rfl⟩ := modify_eq_ok.mp hmodify
    obtain ⟨rfl, rfl, rfl⟩ := pure_eq_ok.mp hpure
    refine hc.generates hop ?_ (.inl ?_) fun x hx => ?_
    · rintro (_ | _ | k) hk <;> simp_all [PrimOp.roles]
    · simp [Instr.implied?, hop]
    · obtain rfl := hx 0 a (by simp)
      obtain rfl := hraw hn
      exact .forward hop
  case forwardCall =>
    obtain ⟨a, _, _, hc, hrest⟩ := hstart.operand_bind h (by simp)
    obtain ⟨b, t, _, hc, hrest⟩ := hc.operand_bind hrest (by simp)
    obtain ⟨_, _, _, hget, hrest⟩ := bind_eq_ok.mp hrest
    obtain ⟨rfl, rfl, rfl⟩ := get_eq_ok.mp hget
    generalize hforwarded : t.forwarded = forwarded at hrest
    cases forwarded with
    | none => exact (fail_eq_ok.mp hrest).elim
    | some pair =>
      obtain ⟨argc, start⟩ := pair
      obtain ⟨_, _, _, hmodify, hpure⟩ := bind_eq_ok.mp hrest
      obtain ⟨rfl, rfl⟩ := modify_eq_ok.mp hmodify
      obtain ⟨rfl, rfl, rfl⟩ := pure_eq_ok.mp hpure
      refine hc.generates hop ?_ (.inl ?_) fun x hx => ?_
      · rintro (_ | _ | k) hk <;> simp_all [PrimOp.roles]
      · simp [Instr.implied?, hop]
      · obtain rfl := hx 0 a (by simp)
        obtain rfl := hx 1 b (by simp)
        exact .forwardCall hop hforwarded
  case isSmi =>
    obtain ⟨a, _, _, hc, hrest⟩ := hstart.operand_bind h (by simp)
    obtain ⟨rfl, rfl, rfl⟩ := setCondition_ok hrest
    refine hc.generates hop ?_ (.inl ?_) fun x hx => ?_
    · rintro (_ | k) hk <;> simp_all [PrimOp.roles]
    · simp [Instr.implied?, hop]
    · obtain rfl := hx 0 a (by simp)
      simpa [Instr.condition, hop, bare] using Generates.test (i := i) (x := x) (s := Emission.bare _) hop rfl
  case isTrue | isUndefined =>
    have hlength : i.inputs.length ≠ 0 := Nat.ne_of_gt (operand_lt h)
    obtain ⟨a, _, _, hc, hrest⟩ := hstart.operand_bind h (by simp)
    obtain ⟨w, _, _, hw, hset⟩ := bind_eq_ok.mp hrest
    obtain ⟨rfl, rfl, rfl⟩ := setCondition_ok hset
    obtain ⟨hbare, hc⟩ := hc.implied (by simp [Instr.implied?, hop]) hw (by simp [hlength])
    refine hc.generates hop ?_ (.inr ⟨.word w, by simp⟩) fun x hx => ?_
    · rintro (_ | k) hk <;> simp_all [PrimOp.roles]
    · obtain rfl := hx 0 a (by simp)
      have himplied : x i.inputs.length = .word w := hx _ _ (by simp)
      rw [← hbare]
      simpa [Instr.condition, hop, himplied, bare] using
        Generates.test (i := i) (x := x) (s := bare _) hop rfl
  case testBits =>
    obtain ⟨a, _, _, hc, hrest⟩ := hstart.operand_bind h (by simp)
    obtain ⟨n, hn, hrest⟩ := ask_bind_eq_ok.mp hrest
    obtain ⟨rfl, rfl, rfl⟩ := setCondition_ok hrest
    refine hc.generates hop ?_ (.inl ?_) fun x hx => ?_
    · rintro (_ | _ | k) hk <;> simp_all [PrimOp.roles]
    · simp [Instr.implied?, hop]
    · obtain rfl := hx 0 a (by simp)
      obtain rfl := hraw hn
      simpa [Instr.condition, hop, bare] using Generates.test (i := i) (x := x) (s := Emission.bare _) hop rfl
  case compareSmi | comparePointer =>
    obtain ⟨a, _, _, hc, hrest⟩ := hstart.operand_bind h (by simp)
    obtain ⟨b, _, _, hc, hrest⟩ := hc.operand_bind hrest (by simp)
    obtain ⟨cond, _, _, hcond, hset⟩ := bind_eq_ok.mp hrest
    obtain ⟨rfl, rfl, rfl⟩ := compareInput_ok hcond
    obtain ⟨rfl, rfl, rfl⟩ := setCondition_ok hset
    refine hc.generates hop ?_ (.inl ?_) fun x hx => ?_
    · rintro (_ | _ | _ | k) hk <;> simp_all [PrimOp.roles]
    · simp [Instr.implied?, hop]
    · obtain rfl := hx 0 a (by simp)
      obtain rfl := hx 1 b (by simp)
      simpa [Instr.condition, hop, bare] using Generates.test (i := i) (x := x) (s := Emission.bare _) hop rfl
  case overflowed =>
    obtain ⟨t, _, _, hget, hrest⟩ := bind_eq_ok.mp h
    obtain ⟨rfl, rfl, rfl⟩ := get_eq_ok.mp hget
    generalize hlast : s.lastArithmetic = last at hrest
    cases last with
    | none => exact (fail_eq_ok.mp hrest).elim
    | some op =>
      obtain ⟨_, _, _, hmodify, hrest⟩ := bind_eq_ok.mp hrest
      obtain ⟨rfl, rfl⟩ := modify_eq_ok.mp hmodify
      obtain ⟨rfl, rfl, rfl⟩ := setCondition_ok hrest
      refine hstart.generates hop ?_ (.inl ?_) fun x hx => .overflowed hop hlast
      · simp [PrimOp.roles]
      · simp [Instr.implied?, hop]
  case neg =>
    obtain ⟨a, _, _, hc, hrest⟩ := hstart.operand_bind h (by simp)
    obtain ⟨rfl, rfl, rfl⟩ := arithmetic_ok hrest
    refine hc.generates hop ?_ (.inl ?_) fun x hx => ?_
    · rintro (_ | k) hk <;> simp_all [PrimOp.roles]
    · simp [Instr.implied?, hop]
    · obtain rfl := hx 0 a (by simp)
      simpa [Instr.arithmetic, hop, bare] using
        Generates.arithmetic (i := i) (x := x) (s := Emission.bare _) (by simp [Instr.isArithmetic, hop])
  case add | sub | mul =>
    obtain ⟨a, _, _, hc, hrest⟩ := hstart.operand_bind h (by simp)
    obtain ⟨b, _, _, hc, hrest⟩ := hc.operand_bind hrest (by simp)
    obtain ⟨rfl, rfl, rfl⟩ := arithmetic_ok hrest
    refine hc.generates hop ?_ (.inl ?_) fun x hx => ?_
    · rintro (_ | _ | k) hk <;> simp_all [PrimOp.roles]
    · simp [Instr.implied?, hop]
    · obtain rfl := hx 0 a (by simp)
      obtain rfl := hx 1 b (by simp)
      simpa [Instr.arithmetic, hop, bare] using
        Generates.arithmetic (i := i) (x := x) (s := Emission.bare _) (by simp [Instr.isArithmetic, hop])

end Engine.Emission
end ScriptEngine
