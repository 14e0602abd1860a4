import ScriptEngine.Proofs.Graph.Building
import ScriptEngine.Proofs.Lowering.Areas
import ScriptEngine.Proofs.Machine.Running

/-!
Areas for arguments in generated code. Lowering matches calls with pushes backwards, code generation
does so again forwards, with a stack of areas. What the one has woven the other accepts: every area is
opened before the first argument of its call, and closed when it is full.
-/

namespace ScriptEngine

open State Lowering

namespace Engine.Emission

/-- What code generation does with areas in a piece of code; the answer lists the calls with the
arguments from their areas. -/
def passAreas (x : Instr → Operand) : List Instr → EmitM (List (InstrId × List Operand))
  | [] => return []
  | i :: rest =>
    match i.op with
    | .prim .openArea => do
      openArea (← ask (i.rawInput 0))
      passAreas x rest
    | .prim .push => do
      push (x i)
      passAreas x rest
    | .prim .call => do
      let args ← closeArea "call" (← ask (i.rawInput 2))
      return (i.id, args) :: (← passAreas x rest)
    | .prim .callStub => do
      let args ← closeArea "callStub" (← ask (i.rawInput 1))
      return (i.id, args) :: (← passAreas x rest)
    | _ => passAreas x rest

/-- What taking the innermost area comes to in a state of code generation. -/
theorem closeArea_apply (operation : String) (argc : Int) (s : Emission) (e : Engine) :
    closeArea operation argc s e = (match s.areas with
      | [] => fail operation "call without alignStack"
      | area :: outer => do
        modify fun s => { s with areas := outer }
        if area.missing ≠ 0 then
          fail operation (toString area.missing ++ " of " ++ toString (Word.ofInt argc).toNat ++
            " arguments not pushed")
        return area.args : EmitM (List Operand)) s e := rfl

theorem push_apply (value : Operand) (s : Emission) (e : Engine) :
    push value s e = (match s.areas with
      | [] => fail "pushArg" "no open argument area"
      | area :: outer => do
        if area.hasRoom ∧ 0 < area.missing then
          let area := { area with missing := area.missing - 1, args := value :: area.args }
          modify fun s => { s with areas := area :: outer }
        else fail "pushArg" "argument area is full" : EmitM Unit) s e := rfl

section

variable {x : Instr → Operand} {i : Instr} {code code' : List Instr} {s t : Emission} {e e' : Engine}
  {r : List (InstrId × List Operand) × Emission}

theorem passAreas_open {count : Nat} (hop : i.op = .prim .openArea) (hraw : i.rawInput 0 = .ok (count : Int)) :
    passAreas x (i :: code) s e = passAreas x code
      { s with areas := { hasRoom := 0 < count, missing := count } :: s.areas } e := by
  have hargc : ¬ ((count : Int) < 0) := by omega
  have hroom : (0 < count ∧ (count : Int) ≠ -1) = (0 < count) := by
    simp only [eq_iff_iff, and_iff_left_iff_imp]
    omega
  rw [passAreas, hop]
  simp only
  rw [hraw]
  change passAreas x code _ e = _
  simp only [if_neg hargc, Int.toNat_natCast, hroom]

theorem passAreas_push {area : ArgumentArea} {outer : List ArgumentArea} {missing : Nat}
    (hop : i.op = .prim .push) (hareas : s.areas = area :: outer) (hroom : area.hasRoom = true)
    (hmissing : area.missing = missing + 1) : passAreas x (i :: code) s e = passAreas x code
      { s with areas := { area with missing, args := x i :: area.args } :: outer } e := by
  rw [passAreas, hop]
  simp only
  change (push (x i) s >>= fun r => passAreas x code r.2) e = _
  have hpush : push (x i) s e =
      .ok ((), { s with areas := { area with missing, args := x i :: area.args } :: outer }) e := by
    rw [push_apply, hareas]
    simp only [hroom, hmissing]
    rfl
  rw [bind_of_ok hpush]

theorem passAreas_call (area : ArgumentArea) {outer : List ArgumentArea} (hcall : i.IsCall)
    (hraw : i.rawInput i.countPlace = .ok (i.taken : Int)) (hareas : s.areas = area :: outer)
    (hmissing : area.missing = 0) {entries : List (InstrId × List Operand)}
    (hrest : passAreas x code { s with areas := outer } e = .ok (entries, t) e') :
    passAreas x (i :: code) s e = .ok ((i.id, area.args) :: entries, t) e' := by
  have hclose : ∀ operation argc, closeArea operation argc s e =
      .ok (area.args, { s with areas := outer }) e := by
    intro operation argc
    rw [closeArea_apply, hareas]
    simp only [hmissing]
    rfl
  have hgoal : ∀ operation, (do
      let args ← closeArea operation (← ask (i.rawInput i.countPlace))
      return (i.id, args) :: (← passAreas x code)) s e = .ok ((i.id, area.args) :: entries, t) e' := fun operation =>
    ask_bind_eq_ok.mpr ⟨_, hraw, bind_eq_ok.mpr ⟨_, _, _, hclose _ _,
      bind_eq_ok.mpr ⟨_, _, _, hrest, pure_eq_ok.mpr ⟨rfl, rfl, rfl⟩⟩⟩⟩
  unfold Instr.countPlace at hgoal
  rcases hcall with hop | hop
  all_goals
    rw [passAreas, hop]
    simp only [hop, if_true, Op.prim.injEq, reduceCtorEq, if_false] at hgoal
    exact hgoal _

theorem passAreas_idle (hopen : i.op ≠ .prim .openArea) (hpush : i.op ≠ .prim .push) (hcall : ¬ i.IsCall) :
    passAreas x (i :: code) = passAreas x code := by
  rw [passAreas]
  split
  · contradiction
  · contradiction
  · rename_i hop
    exact absurd (.inl hop) hcall
  · rename_i hop
    exact absurd (.inr hop) hcall
  · rfl

theorem passAreas_redirect {call checked : InstrId} (code : List Instr) :
    ∀ s : Emission, passAreas x (code.map (redirect call checked)) s = passAreas x code s := by
  induction code with
  | nil => exact fun _ => rfl
  | cons i code ih =>
    have hraw : (redirect call checked i).rawInput 2 = i.rawInput 2 := by
      simp only [Instr.rawInput, redirect_inputs_succ, redirect_id]
    intro s
    rw [List.map_cons, passAreas, passAreas, funext ih]
    by_cases hop : i.op = .prim .call
    · rw [redirect_op, redirect_id, hop, hraw]
    · rw [redirect_of_op_ne hop]

theorem hasRoom_of_passAreas {area : ArgumentArea} {outer : List ArgumentArea} (hop : i.op = .prim .push)
    (hareas : s.areas = area :: outer) (h : passAreas x (i :: code) s e = .ok r e') : area.hasRoom = true := by
  rw [passAreas, hop] at h
  obtain ⟨_, t, e₁, hpush, -⟩ := bind_eq_ok.mp h
  rw [push_apply, hareas] at hpush
  simp only at hpush
  split at hpush
  · rename_i hroom
    exact hroom.1
  · exact (fail_eq_ok.mp hpush).elim

theorem of_passAreas_call {calls : List (InstrId × List Operand)} (hcall : i.IsCall)
    (h : passAreas x (i :: code) s e = .ok (calls, t) e') : ∃ area outer rest, s.areas = area :: outer ∧
      calls = (i.id, area.args) :: rest ∧ passAreas x code { s with areas := outer } e = .ok (rest, t) e' := by
  have hgoal : ∀ operation, (do
      let args ← closeArea operation (← ask (i.rawInput i.countPlace))
      return (i.id, args) :: (← passAreas x code)) s e = .ok (calls, t) e' → ∃ area outer rest,
        s.areas = area :: outer ∧ calls = (i.id, area.args) :: rest ∧
          passAreas x code { s with areas := outer } e = .ok (rest, t) e' := by
    intro operation h
    obtain ⟨argc, -, h⟩ := ask_bind_eq_ok.mp h
    obtain ⟨args, u, e₁, hclose, h⟩ := bind_eq_ok.mp h
    obtain ⟨rest, u', e₂, hrest, hpure⟩ := bind_eq_ok.mp h
    obtain ⟨rfl, rfl, rfl⟩ := pure_eq_ok.mp hpure
    rw [closeArea_apply] at hclose
    cases hareas : s.areas with
    | nil =>
      rw [hareas] at hclose
      exact (fail_eq_ok.mp hclose).elim
    | cons area outer =>
      rw [hareas] at hclose
      obtain ⟨_, u, _, hmodify, hclose⟩ := bind_eq_ok.mp hclose
      obtain ⟨rfl, rfl⟩ := modify_eq_ok.mp hmodify
      simp only at hclose
      split at hclose
      · obtain ⟨_, _, _, hfail, -⟩ := bind_eq_ok.mp hclose
        exact (fail_eq_ok.mp hfail).elim
      · obtain ⟨rfl, rfl, rfl⟩ := pure_eq_ok.mp hclose
        exact ⟨area, outer, rest, rfl, rfl, hrest⟩
  unfold Instr.countPlace at hgoal
  rcases hcall with hop | hop
  all_goals
    rw [passAreas, hop] at h
    simp only [hop, if_true, Op.prim.injEq, reduceCtorEq, if_false] at hgoal
    exact hgoal _ h

/-- A prologue leaves an empty area for its call. -/
theorem passAreas_opening {b : BlockId} {n : Nat} {new : List Instr} {f : Instr → Instr}
    (h : Opening n b i new f) {pushed : List Operand}
    (hrest : passAreas x code { s with areas := { hasRoom := 0 < i.taken, missing := i.taken } :: s.areas } e =
      .ok (takenBy x code pushed, t) e') :
    passAreas x (new ++ code.map f) s e = .ok (takenBy x (new ++ code.map f) pushed, t) e' := by
  cases h with
  | stub =>
    rw [List.map_id, List.singleton_append, @passAreas_open _ _ _ _ _ i.taken rfl rfl,
      takenBy_idle (by simp) (by simp [Instr.IsCall])]
    exact hrest
  | @call o₁ p c o₂ callee =>
    simp only [List.cons_append, List.nil_append]
    rw [@passAreas_open _ _ _ _ _ 1 rfl rfl, passAreas_push rfl rfl rfl rfl]
    rw [takenBy_idle (by simp) (by simp [Instr.IsCall]), takenBy_push rfl, takenBy_call (.inr rfl),
      takenBy_idle (by simp) (by simp [Instr.IsCall])]
    refine passAreas_call ⟨true, 0, [x ⟨p, .prim .push, [callee], b⟩]⟩ (.inr rfl) rfl rfl rfl ?_
    rw [@passAreas_open _ _ _ _ _ i.taken rfl rfl, passAreas_redirect]
    rw [takenBy_redirect]
    exact hrest

/-- What waiting calls have got before a place stands in open areas, with room for the rest. -/
def Serves (w : Waiting) (area : ArgumentArea) : Prop :=
  area.missing = w.after ∧ area.hasRoom = true ∧ area.args.length = w.before

/-- Code generation accepts what lowering has woven: it closes the areas that are open for waiting calls,
and leaves the others alone. -/
theorem passAreas_woven {n : Nat} {b : BlockId} {waiting : List Waiting} (h : Woven n b waiting code code')
    (hu : Unframed code) : ∀ {areas outer : List ArgumentArea} {s : Emission}, List.Forall₂ Serves waiting areas →
      s.areas = areas ++ outer → passAreas x code' s e =
        .ok (takenBy x code' (areas.map (·.args)).flatten, { s with areas := outer }) e := by
  induction h with
  | nil =>
    intro areas outer s hserves hareas
    cases hserves
    obtain rfl : s.areas = outer := hareas
    rfl
  | @idle _ i _ _ hpush hcall _ ih =>
    intro areas outer s hserves hareas
    rw [passAreas_idle (hu.closed i (by simp)) hpush hcall, takenBy_idle hpush hcall]
    exact ih hu.tail hserves hareas
  | @call _ i _ _ hcall _ _ ih =>
    intro areas outer s hserves hareas
    cases hserves with
    | @cons _ area _ areas hfirst hrest =>
      obtain ⟨hmissing, -, hlength⟩ := hfirst
      rw [takenBy_call hcall, List.map_cons, List.flatten_cons, List.drop_left' hlength, List.take_left' hlength]
      exact passAreas_call area hcall (hu.rawInput_eq (by simp) hcall) hareas hmissing
        (ih hu.tail hrest rfl)
  | @bare _ i _ _ _ _ hcall htaken hopening _ ih =>
    intro areas outer s hserves hareas
    refine passAreas_opening hopening ?_
    rw [takenBy_call hcall, htaken, List.take_zero, List.drop_zero]
    exact passAreas_call ⟨decide (0 < 0), 0, []⟩ hcall (hu.rawInput_eq (by simp) hcall) rfl rfl
      (ih hu.tail hserves hareas)
  | @push _ call i before after _ _ hop _ ih =>
    intro areas outer s hserves hareas
    cases hserves with
    | @cons _ area _ areas hfirst hrest =>
      obtain ⟨hmissing, hroom, hlength⟩ := hfirst
      rw [passAreas_push hop hareas hroom hmissing, takenBy_push hop]
      have hnext : List.Forall₂ Serves (⟨call, before + 2, after⟩ :: _)
          ({ area with missing := after, args := x i :: area.args } :: areas) :=
        .cons ⟨rfl, hroom, by simpa using hlength⟩ hrest
      exact ih hu.tail hnext rfl
  | @first waiting call i after _ _ _ _ hop hopening hwoven ih =>
    intro areas outer s hserves hareas
    have htaken := (hwoven.waits ⟨call, 1, after⟩ (by simp)).2.2
    simp only at htaken
    refine passAreas_opening hopening ?_
    rw [passAreas_push hop rfl (by simp only [← htaken]; simp) (show _ = after + 1 by simp only [← htaken]; omega),
      takenBy_push hop]
    have hnext : List.Forall₂ Serves (⟨call, 1, after⟩ :: waiting)
        ({ hasRoom := decide (0 < call.taken), missing := after, args := [x i] } :: areas) :=
      .cons ⟨rfl, by simp only [← htaken]; simp, rfl⟩ hserves
    refine (ih hu.tail hnext ?_)
    rw [hareas]
    rfl

end

/-- The calls in generated code, with their arguments. -/
def callsOf : List MachineInstr → List (InstrId × List Operand)
  | [] => []
  | ⟨some id, .call _ _ args _⟩ :: rest => (id, args) :: callsOf rest
  | _ :: rest => callsOf rest

theorem callsOf_value {id : InstrId} {action : Action} {body : List MachineInstr}
    (h : ∀ target receiver args argc, action ≠ .call target receiver args argc) :
    callsOf (⟨some id, action⟩ :: body) = callsOf body := by
  cases action <;> first | rfl | exact absurd rfl (h _ _ _ _)

/-- Areas that hold the same arguments and miss as many. -/
def Alike (a a' : ArgumentArea) : Prop := a.args = a'.args ∧ a.missing = a'.missing

/-- `Fills i y s emitted t`: what code generation does with areas for an instruction. -/
inductive Fills (i : Instr) (y : Nat → Operand) (s : Emission) : Emitted → Emission → Prop
  | openArea {t : Emission} {argc : Int} {area : ArgumentArea} : i.op = .prim .openArea →
    i.rawInput 0 = .ok argc → area.args = [] → (0 ≤ argc → area.missing = argc.toNat) →
    t.areas = area :: s.areas → Fills i y s .nothing t
  | push {t : Emission} {area : ArgumentArea} {outer : List ArgumentArea} {missing : Nat} : i.op = .prim .push →
    s.areas = area :: outer → area.missing = missing + 1 →
    t.areas = { area with missing, args := y 0 :: area.args } :: outer → Fills i y s .nothing t
  | call {t : Emission} {area : ArgumentArea} {target receiver : Operand} {argc : Int} : i.IsCall →
    s.areas = area :: t.areas → Fills i y s (.value (.call target receiver area.args argc)) t
  | idle {t : Emission} {emitted : Emitted} : i.op ≠ .prim .openArea → i.op ≠ .prim .push → ¬ i.IsCall →
    (∀ target receiver args argc, emitted ≠ .value (.call target receiver args argc)) →
    t.areas = s.areas → Fills i y s emitted t

theorem Fills.of_op {i : Instr} {y : Nat → Operand} {s t : Emission} {emitted : Emitted} {op : PrimOp}
    (hop : i.op = .prim op) (hothers : op ≠ .openArea ∧ op ≠ .push ∧ op ≠ .call ∧ op ≠ .callStub)
    (hemitted : ∀ target receiver args argc, emitted ≠ .value (.call target receiver args argc))
    (hareas : t.areas = s.areas) : Fills i y s emitted t := by
  obtain ⟨hopen, hpush, hcall, hstub⟩ := hothers
  exact .idle (by simpa [hop] using hopen) (by simpa [hop] using hpush) (by simp [Instr.IsCall, hop, hcall, hstub])
    hemitted hareas

theorem fills_of_generates {i : Instr} {y : Nat → Operand} {s t : Emission} {emitted : Emitted}
    (h : Generates i y s emitted t) : Fills i y s emitted t := by
  cases h with
  | openArea hop hraw hcount => exact .openArea hop hraw rfl hcount rfl
  | push hop hareas hmissing => exact .push hop hareas hmissing rfl
  | @call area outer hcall hareas =>
    have haction : ∃ target receiver argc, i.action y area.args = .call target receiver area.args argc := by
      unfold Instr.action
      rcases hcall with hop | hop <;> simp [hop]
    obtain ⟨target, receiver, argc, heq⟩ := haction
    rw [heq]
    exact .call hcall hareas
  | @value op hop hvalue =>
    refine .of_op hop ?_ ?_ rfl
    · cases op <;> first | cases hvalue; done | simp
    · unfold Instr.action
      rw [hop]
      cases op <;> first | cases hvalue; done | simp
  | @effect op hop heffect => exact .of_op hop (by cases op <;> first | cases heffect; done | simp) (by simp) rfl
  | @test op hop htest => exact .of_op hop (by cases op <;> first | cases htest; done | simp) (by simp) rfl
  | arithmetic harith =>
    simp only [Instr.isArithmetic, Bool.or_eq_true, decide_eq_true_eq] at harith
    rcases harith with ((hop | hop) | hop) | hop <;> exact .of_op hop (by simp) (by simp) rfl
  | pass hpass =>
    have hop : i.op = .prim .toPhi := by
      unfold Instr.passTarget? at hpass
      split at hpass
      · assumption
      · cases hpass
    exact .of_op hop (by simp) (by simp) rfl
  | ret hop => rcases hop with hop | hop <;> exact .of_op hop (by simp) (by simp) rfl
  | parameter hop | forward hop | tailCall hop | overflowed hop | forwardCall hop =>
    exact .of_op hop (by simp) (by simp) rfl

/-- Generated code holds the calls that the areas lead to, and leaves as many areas open. -/
theorem callsOf_translates {words : InstrId → Nat → Word} {code : List Instr} {s s' : Emission}
    {body : List MachineInstr} {exit : Option Exit} (h : Translates words code s body exit s') {e : Engine}
    (hcount : ∀ i ∈ code, i.op = .prim .openArea → ∃ count : Nat, i.rawInput 0 = .ok (count : Int)) :
    ∀ {u t : Emission} {calls : List (InstrId × List Operand)}, List.Forall₂ Alike u.areas s.areas →
      passAreas (fun i => i.operand (words i.id) 0) code u e = .ok (calls, t) e →
      callsOf body = calls ∧ List.Forall₂ Alike t.areas s'.areas := by
  induction h with
  | nil s =>
    intro u t calls halike hpass
    obtain ⟨rfl, rfl, -⟩ := pure_eq_ok.mp hpass
    exact ⟨rfl, halike⟩
  | @silent i code s t s' body exit _ hgen _ ih =>
    intro u t' calls halike hpass
    have ih := @ih fun j hj => hcount j (by simp [hj])
    cases fills_of_generates hgen with
    | @openArea _ argc area hop hraw hargs htoNat hareas =>
      obtain ⟨n, hn⟩ := hcount i (by simp) hop
      obtain rfl : argc = n := Except.ok.inj (hraw.symm.trans hn)
      rw [passAreas_open hop hn] at hpass
      refine ih ?_ hpass
      rw [hareas]
      exact .cons ⟨hargs.symm, by simpa using (htoNat (by omega)).symm⟩ halike
    | @push _ area outer missing hop hareas hmissing hareas' =>
      rw [hareas] at halike
      cases hu : u.areas with
      | nil => simp [hu] at halike
      | cons area' outer' =>
        rw [hu, List.forall₂_cons] at halike
        obtain ⟨⟨hargs, hmissing'⟩, hrest⟩ := halike
        rw [passAreas_push hop hu (hasRoom_of_passAreas hop hu hpass) (hmissing'.trans hmissing)] at hpass
        refine ih ?_ hpass
        rw [hareas']
        exact .cons ⟨congrArg (_ :: ·) hargs, rfl⟩ hrest
    | idle hopen hpush hcall hemitted hareas =>
      rw [passAreas_idle hopen hpush hcall] at hpass
      exact ih (by rwa [hareas]) hpass
  | @effect i code s t s' action body exit _ hgen _ ih =>
    intro u t' calls halike hpass
    cases fills_of_generates hgen with
    | idle hopen hpush hcall hemitted hareas =>
      rw [passAreas_idle hopen hpush hcall] at hpass
      exact ih (fun j hj => hcount j (by simp [hj])) (by rwa [hareas]) hpass
  | @value i code s t s' action body exit _ hgen _ ih =>
    intro u t' calls halike hpass
    have ih := @ih fun j hj => hcount j (by simp [hj])
    cases fills_of_generates hgen with
    | idle hopen hpush hcall hemitted hareas =>
      rw [passAreas_idle hopen hpush hcall] at hpass
      rw [callsOf_value fun target receiver args argc heq => hemitted target receiver args argc (by rw [heq])]
      exact ih (show List.Forall₂ _ _ t.areas by rwa [hareas]) hpass
    | @call _ area target receiver argc hcall hareas =>
      obtain ⟨area', outer, rest, hu, rfl, hrest⟩ := of_passAreas_call hcall hpass
      rw [hu, hareas, List.forall₂_cons] at halike
      obtain ⟨hbody, halike'⟩ := ih halike.2 hrest
      exact ⟨by rw [callsOf, hbody, halike.1.1], halike'⟩
  | @exit i s t exit _ hgen =>
    intro u t' calls halike hpass
    cases fills_of_generates hgen with
    | idle hopen hpush hcall hemitted hareas =>
      rw [passAreas_idle hopen hpush hcall] at hpass
      obtain ⟨rfl, rfl, -⟩ := pure_eq_ok.mp hpass
      exact ⟨rfl, by rwa [hareas]⟩

/-- Areas are opened for as many arguments as their calls take. -/
theorem openArea_counted {n : Nat} {b : BlockId} {waiting : List Waiting} {code code' : List Instr}
    (h : Woven n b waiting code code') (hu : Unframed code) : ∀ i ∈ code', i.op = .prim .openArea →
      ∃ count : Nat, i.rawInput 0 = .ok (count : Int) := by
  have hopening : ∀ {call : Instr} {new rest : List Instr} {f : Instr → Instr}, Opening n b call new f →
      (∀ i ∈ rest, i.op = .prim .openArea → ∃ count : Nat, i.rawInput 0 = .ok (count : Int)) →
      ∀ i ∈ new ++ rest.map f, i.op = .prim .openArea → ∃ count : Nat, i.rawInput 0 = .ok (count : Int) := by
    intro call new rest f hopening hrest i hi hop
    rcases List.mem_append.mp hi with hnew | hi
    · cases hopening with
      | stub =>
        obtain rfl := List.mem_singleton.mp hnew
        exact ⟨_, rfl⟩
      | call =>
        simp only [List.mem_cons, List.not_mem_nil, or_false] at hnew
        rcases hnew with rfl | rfl | rfl | rfl
        · exact ⟨1, rfl⟩
        · cases hop
        · cases hop
        · exact ⟨_, rfl⟩
    · obtain ⟨j, hj, rfl⟩ := List.mem_map.mp hi
      by_cases hjop : j.op = .prim .call
      · cases hopening with
        | stub => exact hrest j hj hop
        | call => rw [redirect_op, hjop] at hop; cases hop
      · rw [hopening.fixes (.inl hjop)] at hop ⊢
        exact hrest j hj hop
  have hkeep : ∀ {i : Instr} {rest : List Instr}, i.op ≠ .prim .openArea →
      (∀ j ∈ rest, j.op = .prim .openArea → ∃ count : Nat, j.rawInput 0 = .ok (count : Int)) →
      ∀ j ∈ i :: rest, j.op = .prim .openArea → ∃ count : Nat, j.rawInput 0 = .ok (count : Int) := by
    intro i rest hop hrest j hj hjop
    rcases List.mem_cons.mp hj with rfl | hj
    · contradiction
    · exact hrest j hj hjop
  induction h with
  | nil => simp
  | idle _ _ _ ih | call _ _ _ ih | push _ _ ih => exact hkeep (hu.closed _ (by simp)) (ih hu.tail)
  | bare _ _ h _ ih | first _ h _ ih => exact hopening h (hkeep (hu.closed _ (by simp)) (ih hu.tail))

/-- A block is given its prologues if and only if its pushes and calls balance. Then the areas of code
generation match calls with pushes as the block did before: each call gets as many values as it takes,
the last one pushed first, and a function call gets its callee by a check that stands before all of
them. -/
theorem prologues_balance {g : Graph} {b : BlockId} (hl : g.Listed) (hb : b.index < g.blocks.size)
    (hu : Unframed (g.code b)) : ((∃ g', lowerCalls b g = .ok () g') ↔ Settles (g.code b)) ∧
      ∀ g', lowerCalls b g = .ok () g' →
        (∀ (x : Instr → Operand) s e, ∃ calls, passAreas x (g'.code b) s e = .ok (calls, s) e ∧
          List.Forall₂ (fun i entry => entry.1 = i.id ∧ entry.2.length = i.taken)
            ((g'.code b).filter (·.IsCall)) calls ∧
          calls = takenBy x (g'.code b) [] ∧
          calls.filter (fun entry => entry.1.index < g.instrs.size) = takenBy x (g.code b) []) ∧
        (∀ i ∈ g.code b, i.op = .prim .call → Checked id g.instrs.size b i (g'.code b) []) ∧
        ∀ (scope : EmissionScope) s e body exit s' e', scope.graph = g' →
          instructions scope b (g'.listing b) [] s e = .ok ((body, exit), s') e' →
          List.Forall₂ Alike s.areas s'.areas ∧ ∃ words : InstrId → Nat → Word, callsOf body =
            takenBy (fun i => i.operand (words i.id) 0) (g'.code b) [] := by
  refine ⟨lowerCalls_ok_iff hl hb hu, fun g' hok => ?_⟩
  have hsettles := (lowerCalls_ok_iff hl hb hu).mp ⟨g', hok⟩
  obtain ⟨_, g'', hok', code', hwoven, hedits⟩ := runs_lowerCalls hl hb hu hsettles
  rw [hok] at hok'
  obtain rfl : g' = g'' := (EStateM.Result.ok.inj hok').2
  rw [← hedits.code] at hwoven
  have hold : ∀ i ∈ g.code b, i.id.index < g.instrs.size := fun i hi =>
    hl.lt_of_mem_listing (hl.mem_code_iff.mp hi).1
  have hpass : ∀ x s e, passAreas x (g'.code b) s e = .ok (takenBy x (g'.code b) [], s) e := fun x s e =>
    @passAreas_woven x _ _ e _ _ _ hwoven hu [] s.areas s .nil rfl
  refine ⟨fun x s e => ⟨_, hpass x s e, hwoven.takenBy_full .nil, rfl, hwoven.takenBy_old hold _⟩,
    fun i hi hop => hwoven.checked (hl.code_nodup b) hold .nil i hi hop (by simp), ?_⟩
  rintro scope s e body exit s' e' rfl hrun
  obtain ⟨words, log, tail, -, -, -, hbody, htranslates⟩ :=
    instructions_translates (hedits.listed.forall₂_code b) (hedits.listed.code_nodup b) hrun
  obtain rfl : body = tail := hbody
  obtain ⟨hcalls, halike⟩ := callsOf_translates htranslates (openArea_counted hwoven hu)
    (List.forall₂_same.mpr fun _ _ => ⟨rfl, rfl⟩) (hpass _ s.bare e)
  exact ⟨halike, words, hcalls⟩

/-- A call of a function whose first argument is the answer of a stub, and whose second argument is
pushed before the stub is called. -/
def nestedCalls : Graph where
  name := "nested"
  instrs := #[⟨⟨0⟩, .prim .callee, [], ⟨0⟩⟩, ⟨⟨1⟩, .prim .push, [.value ⟨0⟩], ⟨0⟩⟩,
    ⟨⟨2⟩, .prim .push, [.value ⟨0⟩], ⟨0⟩⟩,
    ⟨⟨3⟩, .prim .callStub, [.const (.stub "coerce/boolean"), .const (.raw 1)], ⟨0⟩⟩,
    ⟨⟨4⟩, .prim .push, [.value ⟨3⟩], ⟨0⟩⟩,
    ⟨⟨5⟩, .prim .call, [.value ⟨0⟩, .value ⟨0⟩, .const (.raw 2)], ⟨0⟩⟩,
    ⟨⟨6⟩, .prim .ret, [.value ⟨5⟩], ⟨0⟩⟩]
  blocks := #[⟨[⟨0⟩, ⟨1⟩, ⟨2⟩, ⟨3⟩, ⟨4⟩, ⟨5⟩, ⟨6⟩], []⟩]

theorem prologues_balance_nestedCalls : nestedCalls.Listed ∧ 0 < nestedCalls.blocks.size ∧
    Unframed (nestedCalls.code ⟨0⟩) ∧ ∃ g', lowerCalls ⟨0⟩ nestedCalls = .ok () g' :=
  ⟨by decide, by decide, by decide, (prologues_balance (by decide) (by decide) (by decide)).1.mpr (by decide)⟩

end Engine.Emission
end ScriptEngine
