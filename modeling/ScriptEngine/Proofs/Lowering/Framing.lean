import ScriptEngine.Proofs.Lowering.Stages

/-!
The last pass. It meets the calls of a block from behind and opens an area in front of the first
argument of each; the callee of a function is checked there as well.
-/

namespace ScriptEngine.Lowering

open State Graph

abbrev openInstr (b : BlockId) (id : InstrId) (argc : Nat) : Instr :=
  ⟨id, .prim .openArea, [raw argc], b⟩

abbrev callInstr (b : BlockId) (id f r : InstrId) (argc : Nat) : Instr :=
  ⟨id, .prim .call, [.value f, .value r, raw argc], b⟩

/-- Code before and after areas were opened; new instructions have numbers from `n` on. -/
inductive Framed (n : Nat) (b : BlockId) : List Instr → List Instr → Prop where
  | nil : Framed n b [] []
  | simple {i : Instr} {rest rest' : List Instr} : Simple i.op i.inputs → i.op.isPrim = true →
    Framed n b rest rest' → Framed n b (i :: rest) (i :: rest')
  | stub {area rest rest' : List Instr} {i : Instr} {o : InstrId} :
    (∀ j ∈ area, j.IsPush ∨ j.IsLiteral) → i.op = .prim .callStub →
    Takes (pushCount area) i.op i.inputs → n ≤ o.index → Framed n b rest rest' →
    Framed n b (area ++ i :: rest) (openInstr b o (pushCount area) :: (area ++ i :: rest'))
  | call {area rest rest' : List Instr} {x f r o₁ p c o₂ : InstrId} :
    (∀ j ∈ area, j.IsPush) → n ≤ o₁.index → n ≤ p.index → n ≤ c.index → n ≤ o₂.index →
    Framed n b rest rest' →
    Framed n b (area ++ callInstr b x f r (pushCount area) :: rest)
      (openInstr b o₁ 1 :: pushInstr b p f :: stubInstr b c "checkFunction" 1 ::
        openInstr b o₂ (pushCount area) ::
        (area ++ callInstr b x c r (pushCount area) :: rest'))

theorem Framed.literals {n : Nat} {b : BlockId} {lits xs ys : List Instr}
    (hl : ∀ j ∈ lits, j.IsLiteral) (h : Framed n b xs ys) :
    Framed n b (lits ++ xs) (lits ++ ys) := by
  induction lits with
  | nil => exact h
  | cons j rest ih =>
    obtain ⟨hop, c, hc, hins⟩ := hl j (by simp)
    refine .simple ?_ (by simp [hop, Op.isPrim]) (ih fun i hi => hl i (by simp [hi]))
    rw [hop, hins]
    exact .literal hc

section

variable {n : Nat} {b : BlockId} {xs ys : List Instr}

theorem Framed.keeps (h : Framed n b xs ys) {i : Instr} (hi : i ∈ xs) (hop : i.op ≠ .prim .call) : i ∈ ys := by
  induction h with
  | nil => cases hi
  | simple _ _ _ ih =>
    rcases List.mem_cons.mp hi with rfl | hi
    · simp
    · simp [ih hi]
  | stub _ _ _ _ _ ih =>
    rcases List.mem_append.mp hi with hi | hi
    · simp [hi]
    · rcases List.mem_cons.mp hi with rfl | hi
      · simp
      · simp [ih hi]
  | call _ _ _ _ _ _ ih =>
    rcases List.mem_append.mp hi with hi | hi
    · simp [hi]
    · rcases List.mem_cons.mp hi with rfl | hi
      · exact absurd rfl hop
      · simp [ih hi]

/-- The callee of every call is checked. -/
theorem Framed.checks (h : Framed n b xs ys) {i : Instr} (hi : i ∈ xs) (hop : i.op = .prim .call) :
    ∃ x f r c argc, i = callInstr b x f r argc ∧ stubInstr b c "checkFunction" 1 ∈ ys ∧
      callInstr b x c r argc ∈ ys := by
  induction h with
  | nil => cases hi
  | simple hsimple _ _ ih =>
    rcases List.mem_cons.mp hi with rfl | hi
    · rw [hop] at hsimple
      cases hsimple
    · obtain ⟨x, f, r, c, argc, rfl, hc, hx⟩ := ih hi
      exact ⟨x, f, r, c, argc, rfl, by simp [hc], by simp [hx]⟩
  | stub harea hstub _ _ _ ih =>
    rcases List.mem_append.mp hi with hi | hi
    · rcases harea i hi with ⟨hpush, -⟩ | ⟨hlit, -⟩
      · simp [hop] at hpush
      · simp [hop] at hlit
    · rcases List.mem_cons.mp hi with rfl | hi
      · simp [hop] at hstub
      · obtain ⟨x, f, r, c, argc, rfl, hc, hx⟩ := ih hi
        exact ⟨x, f, r, c, argc, rfl, by simp [hc], by simp [hx]⟩
  | @call area rest rest' x f r o₁ p c o₂ harea _ _ _ _ _ ih =>
    rcases List.mem_append.mp hi with hi | hi
    · have hpush := (harea i hi).1
      simp [hop] at hpush
    · rcases List.mem_cons.mp hi with rfl | hi
      · exact ⟨x, f, r, c, _, rfl, by simp, by simp⟩
      · obtain ⟨x, f, r, c, argc, rfl, hc, hx⟩ := ih hi
        exact ⟨x, f, r, c, argc, rfl, by simp [hc], by simp [hx]⟩

end

/-! ### Walking backwards -/

/-- The walk over instructions, from the last to the first. -/
def backward (ids : List InstrId) (pending : List PendingCall) : LowerM (List PendingCall) :=
  ids.reverse.foldlM (fun pending id => do expectPushes pending (← instrOf id)) pending

theorem backward_cons (id : InstrId) (ids : List InstrId) (pending : List PendingCall) :
    backward (id :: ids) pending =
      (backward ids pending >>= fun pending => do expectPushes pending (← instrOf id)) := by
  unfold backward
  rw [List.reverse_cons, List.foldlM_append]
  simp only [List.foldlM_cons, List.foldlM_nil, bind_pure]

theorem backward_append (xs ys : List InstrId) (pending : List PendingCall) :
    backward (xs ++ ys) pending = backward ys pending >>= backward xs := by
  unfold backward
  rw [List.reverse_append, List.foldlM_append]

section

variable {g : Graph} {b : BlockId} {n : Nat} {pre area post : List Instr} {i : Instr}

/-- Instructions that do not matter to the walk. -/
def Idle (i : Instr) : Prop := ∀ pending, expectPushes pending i = pure pending

theorem runs_idle {pending : List PendingCall} (hl : g.Listed) {idle : List Instr}
    (hidle : ∀ j ∈ idle, Idle j ∧ j ∈ g.code b) :
    Runs (backward (idle.map (·.id)) pending) g fun p g' => p = pending ∧ g' = g := by
  induction idle with
  | nil => exact Runs.pure ⟨rfl, rfl⟩
  | cons j rest ih =>
    rw [List.map_cons, backward_cons]
    refine (ih fun i hi => hidle i (by simp [hi])).bind ?_
    rintro _ _ ⟨rfl, rfl⟩
    obtain ⟨hj, hmem⟩ := hidle j (by simp)
    refine Runs.instrOf hl hmem ?_
    rw [hj]
    exact Runs.pure ⟨rfl, rfl⟩

theorem idle_of_op {op : PrimOp} (hop : i.op = .prim op) (hcall : op ≠ .call)
    (hstub : op ≠ .callStub) (hpush : op ≠ .push) : Idle i := by
  intro pending
  unfold expectPushes
  rw [hop]
  cases op <;> first | rfl | contradiction

theorem idle_of_isLiteral (h : i.IsLiteral) : Idle i :=
  idle_of_op h.1 (by simp) (by simp) (by simp)

/-- Arguments of a call that expects more of them. -/
theorem runs_arguments {call : InstrId} {r : Nat} (hl : g.Listed)
    (harea : ∀ j ∈ area, (j.IsPush ∨ j.IsLiteral) ∧ j ∈ g.code b) (hr : pushCount area < r) :
    Runs (backward (area.map (·.id)) [⟨call, r⟩]) g fun p g' =>
      p = [⟨call, r - pushCount area⟩] ∧ g' = g := by
  induction area with
  | nil => exact Runs.pure ⟨rfl, rfl⟩
  | cons j rest ih =>
    rw [List.map_cons, backward_cons]
    have hle : pushCount rest ≤ pushCount (j :: rest) := by
      simp [pushCount, List.countP_cons]
    refine (ih (fun i hi => harea i (by simp [hi])) (hle.trans_lt hr)).bind ?_
    rintro _ _ ⟨rfl, rfl⟩
    obtain ⟨hj, hmem⟩ := harea j (by simp)
    refine Runs.instrOf hl hmem ?_
    unfold expectPushes
    rcases hj with ⟨hop, -⟩ | ⟨hop, -⟩
    · have hcount : pushCount (j :: rest) = pushCount rest + 1 := by simp [pushCount, hop]
      rw [hop]
      simp only
      rw [if_neg (by omega), hcount]
      exact Runs.pure ⟨rfl, rfl⟩
    · have hcount : pushCount (j :: rest) = pushCount rest := by simp [pushCount, hop]
      rw [hop, hcount]
      exact Runs.pure ⟨rfl, rfl⟩

/-! ### Prologues -/

/-- The prologue of a stub call. -/
theorem runs_prologue_stub {anchor : Instr} {target : Input} (hl : g.Listed) (hi : i ∈ g.code b)
    (hop : i.op = .prim .callStub) (hins : i.inputs = [target, raw n])
    (hcode : g.code b = pre ++ anchor :: post) :
    Runs (prologue i.id anchor.id) g fun _ g' => ∃ o : InstrId, g.instrs.size ≤ o.index ∧
      Edits g g' b (pre ++ openInstr b o n :: anchor :: post) := by
  refine Runs.instrOf hl hi ?_
  rw [hop]
  refine Runs.ask (a := (n : Int)) (by rw [Instr.rawInput, hins]; rfl) ?_
  rw [Int.toNat_natCast]
  obtain ⟨o, g', hok, hc⟩ := (Cursor.start hl hcode).insert .openArea [raw n]
  refine ⟨(), g', discard_eq_ok.mpr ⟨o, hok⟩, o, (hc.fresh (openInstr b o n) (by simp)).2, ?_⟩
  exact hc.edits

/-- `g'` is `g` with the prologue of a function call in front of its arguments. -/
def ChecksCallee (g g' : Graph) (b : BlockId) (pre area : List Instr) (x f r : InstrId) (n : Nat)
    (post : List Instr) : Prop :=
  ∃ o₁ p c o₂ : InstrId, (g.instrs.size ≤ o₁.index ∧ g.instrs.size ≤ p.index ∧
      g.instrs.size ≤ c.index ∧ g.instrs.size ≤ o₂.index) ∧
    Edits g g' b (pre ++ (openInstr b o₁ 1 :: pushInstr b p f ::
      stubInstr b c "checkFunction" 1 :: openInstr b o₂ n ::
        (area ++ callInstr b x c r n :: post)))

/-- The prologue of a function call, at its first argument or at the call itself. -/
theorem runs_prologue_call {x f r : InstrId} {anchor : Instr} {others : List Instr}
    (hl : g.Listed)
    (hcode : g.code b = pre ++ (area ++ callInstr b x f r n :: post))
    (hanchor : area ++ callInstr b x f r n :: post =
      anchor :: others) :
    Runs (prologue x anchor.id) g fun _ g' => ChecksCallee g g' b pre area x f r n post := by
  have hmem : callInstr b x f r n ∈ g.code b := by
    simp [hcode]
  refine Runs.instrOf hl hmem ?_
  refine Runs.ask (a := (n : Int)) rfl (Runs.ask (a := Input.value f) rfl ?_)
  rw [hanchor] at hcode
  rw [Int.toNat_natCast]
  obtain ⟨o₁, g₁, hok₁, h₁⟩ := (Cursor.start hl hcode).insert .openArea [raw 1]
  refine Runs.bind (P := fun _ g' => g' = g₁) ⟨(), g₁, discard_eq_ok.mpr ⟨o₁, hok₁⟩, rfl⟩ ?_
  rintro _ _ rfl
  refine (h₁.push (.value f)).bind ?_
  rintro _ g₂ ⟨p, h₂⟩
  refine (h₂.insert .callStub [.const (.stub "checkFunction"), raw 1]).bind fun c g₃ h₃ => ?_
  obtain ⟨o₂, g₄, hok₄, h₄⟩ := h₃.insert .openArea [raw n]
  refine Runs.bind (P := fun _ g' => g' = g₄) ⟨(), g₄, discard_eq_ok.mpr ⟨o₂, hok₄⟩, rfl⟩ ?_
  rintro _ _ rfl
  have hcode₄ := h₄.edits.code
  rw [← hanchor] at hcode₄
  simp only [← List.append_assoc] at hcode₄
  refine (replace_ok h₄.edits.listed hcode₄ _ _).mono fun _ g₅ he => ?_
  refine ⟨o₁, p, c, o₂, ⟨?_, ?_, ?_, ?_⟩, ?_⟩
  · exact (h₄.fresh (openInstr b o₁ 1) (by simp)).2
  · exact (h₄.fresh (pushInstr b p f) (by simp)).2
  · exact (h₄.fresh (stubInstr b c "checkFunction" 1) (by simp)).2
  · exact (h₄.fresh (openInstr b o₂ n) (by simp)).2
  · have := h₄.edits.trans he
    simpa using this

/-! ### Blocks -/

theorem exists_first_push (hpush : 0 < pushCount area)
    (harea : ∀ j ∈ area, j.IsPush ∨ j.IsLiteral) : ∃ lits p others,
      area = lits ++ p :: others ∧ (∀ j ∈ lits, j.IsLiteral) ∧ p.IsPush ∧
        pushCount area = pushCount others + 1 := by
  induction area with
  | nil => simp [pushCount] at hpush
  | cons j rest ih =>
    rcases harea j (by simp) with hj | hj
    · exact ⟨[], j, rest, rfl, by simp, hj, by simp [pushCount, hj.1]⟩
    · have hcount : pushCount (j :: rest) = pushCount rest := by simp [pushCount, hj.1]
      rw [hcount] at hpush ⊢
      obtain ⟨lits, p, others, rfl, hlits, hp, hn⟩ := ih hpush fun i hi => harea i (by simp [hi])
      exact ⟨j :: lits, p, others, rfl, by simpa [hj] using hlits, hp, hn⟩

theorem literals_of_pushCount (hcount : pushCount area = 0)
    (harea : ∀ j ∈ area, j.IsPush ∨ j.IsLiteral) : ∀ j ∈ area, j.IsLiteral := by
  intro j hj
  refine (harea j hj).resolve_left fun hp => ?_
  have hpos : 0 < pushCount area := List.countP_pos_iff.mpr ⟨j, hj, by simp [hp.1]⟩
  omega

/-- The walk over a call and its arguments: the prologue is put in front of the first one, or of the
call if it has none. -/
theorem runs_area (hl : g.Listed) (harea : ∀ j ∈ area, j.IsPush ∨ j.IsLiteral)
    (hcode : g.code b = pre ++ (area ++ i :: post))
    (hexpect : expectPushes [] i = if pushCount area = 0 then prologue i.id i.id >>= fun _ => pure []
      else pure [⟨i.id, pushCount area⟩])
    {Q : List Instr → List Instr → Graph → Prop}
    (hprologue : ∀ lits args anchor others, area = lits ++ args → (∀ j ∈ lits, j.IsLiteral) →
      args ++ i :: post = anchor :: others →
      Runs (prologue i.id anchor.id) g fun _ g' => Q lits args g')
    (hQ : ∀ lits args g', Q lits args g' → g'.Listed ∧ ∀ j ∈ lits, j ∈ g'.code b) :
    Runs (backward ((area ++ [i]).map (·.id)) []) g fun pending g' => pending = [] ∧
      ∃ lits args, area = lits ++ args ∧ (∀ j ∈ lits, j.IsLiteral) ∧
        pushCount args = pushCount area ∧ Q lits args g' := by
  have hmem : i ∈ g.code b := by simp [hcode]
  have hlast : backward [i.id] [] = (do expectPushes [] (← instrOf i.id)) := by
    rw [backward_cons]
    rfl
  -- What follows the prologue are literals only.
  have hrest {lits args : List Instr} {g' : Graph} (hlits : ∀ j ∈ lits, j.IsLiteral)
      (h : Q lits args g') : Runs (backward (lits.map (·.id)) []) g' fun pending g'' =>
        pending = [] ∧ Q lits args g'' := by
    obtain ⟨hl', hmem'⟩ := hQ lits args g' h
    refine (runs_idle hl' fun j hj => ⟨idle_of_isLiteral (hlits j hj), hmem' j hj⟩).mono ?_
    rintro _ _ ⟨rfl, rfl⟩
    exact ⟨rfl, h⟩
  rw [List.map_append, backward_append, List.map_singleton, hlast, bind_assoc]
  refine Runs.instrOf hl hmem ?_
  rw [hexpect]
  by_cases hcount : pushCount area = 0
  · rw [if_pos hcount, bind_assoc]
    have hlits := literals_of_pushCount hcount harea
    refine (hprologue area [] i post (by simp) hlits rfl).bind fun _ g' h => ?_
    refine (hrest hlits h).mono ?_
    rintro _ g'' ⟨rfl, h'⟩
    exact ⟨rfl, area, [], by simp, hlits, hcount.symm, h'⟩
  · rw [if_neg hcount, pure_bind]
    obtain ⟨lits, p, others, rfl, hlits, hp, hn⟩ := exists_first_push (by omega) harea
    have hpmem : p ∈ g.code b := by simp [hcode]
    have hothers : ∀ j ∈ others, (j.IsPush ∨ j.IsLiteral) ∧ j ∈ g.code b := fun j hj =>
      ⟨harea j (by simp [hj]), by simp [hcode, hj]⟩
    rw [List.map_append, backward_append, List.map_cons, backward_cons, bind_assoc]
    refine (runs_arguments hl hothers (by omega)).bind ?_
    rintro _ g₁ ⟨rfl, rfl⟩
    rw [bind_assoc]
    refine Runs.instrOf hl hpmem ?_
    unfold expectPushes
    rw [hp.1]
    simp only
    rw [if_pos (by omega), bind_assoc]
    refine (hprologue lits (p :: others) p _ rfl hlits rfl).bind fun _ g' h => ?_
    refine (hrest hlits h).mono ?_
    rintro _ g'' ⟨rfl, h'⟩
    refine ⟨rfl, lits, p :: others, rfl, hlits, ?_, h'⟩
    rw [hn]
    simp [pushCount, hp.1]

/-- What the walk makes of an instruction that takes arguments. -/
theorem expectPushes_takes {m : Nat} (ht : Takes m i.op i.inputs) (hprim : i.op.isPrim = true) :
    expectPushes [] i = if m = 0 then prologue i.id i.id >>= fun _ => pure []
      else pure [⟨i.id, m⟩] := by
  have hgoal : ∀ index, i.rawInput index = .ok (m : Int) → (do
      let argc ← ask (i.rawInput index)
      if argc < 0 then throw (.internal i.op.name "negative argument count")
      else if argc = 0 then
        prologue i.id i.id
        return []
      else return [⟨i.id, argc.toNat⟩] : LowerM (List PendingCall)) =
        if m = 0 then prologue i.id i.id >>= fun _ => pure [] else pure [⟨i.id, m⟩] := by
    intro index hraw
    rw [hraw]
    have hpos : ¬ (m : Int) < 0 := by omega
    by_cases hm : m = 0
    · subst hm
      rfl
    · have hne : ¬ (m : Int) = 0 := by omega
      simp only [ask, pure_bind, if_neg hpos, if_neg hne, if_neg hm, Int.toNat_natCast]
  obtain ⟨x, op, ins, b⟩ := i
  cases ht with
  | call => exact hgoal 2 rfl
  | stub => exact hgoal 1 rfl
  | cache => exact hgoal 1 rfl
  | construct => cases hprim

theorem runs_stub (hl : g.Listed) (hop : i.op = .prim .callStub)
    (harea : ∀ j ∈ area, j.IsPush ∨ j.IsLiteral) (ht : Takes (pushCount area) i.op i.inputs)
    (hcode : g.code b = pre ++ (area ++ i :: post)) :
    Runs (backward ((area ++ [i]).map (·.id)) []) g fun pending g' => pending = [] ∧
      ∃ lits args, area = lits ++ args ∧ (∀ j ∈ lits, j.IsLiteral) ∧
        pushCount args = pushCount area ∧ ∃ o : InstrId, g.instrs.size ≤ o.index ∧
        Edits g g' b (pre ++ (lits ++ openInstr b o (pushCount area) :: (args ++ i :: post))) := by
  obtain ⟨target, hins⟩ : ∃ target, i.inputs = [target, raw (pushCount area)] := by
    rw [hop] at ht
    generalize i.inputs = ins at ht
    cases ht with
    | stub => exact ⟨_, rfl⟩
    | cache => exact ⟨_, rfl⟩
  refine runs_area hl harea hcode (expectPushes_takes ht (by rw [hop]; rfl)) ?_ ?_
  · rintro lits args anchor others rfl - hanchor
    have hcode' : g.code b = (pre ++ lits) ++ anchor :: others := by simp [hcode, ← hanchor]
    refine (runs_prologue_stub hl (by simp [hcode]) hop hins hcode').mono ?_
    rintro _ g' ⟨o, ho, he⟩
    refine ⟨o, ho, ?_⟩
    rw [hanchor, ← List.append_assoc]
    exact he
  · rintro lits args g' ⟨o, -, he⟩
    exact ⟨he.listed, fun j hj => by simp [he.code, hj]⟩

theorem runs_call {x f r : InstrId} (hl : g.Listed) (harea : ∀ j ∈ area, j.IsPush)
    (hcode : g.code b =
      pre ++ (area ++ callInstr b x f r (pushCount area) :: post)) :
    Runs (backward ((area ++
        [callInstr b x f r (pushCount area)]).map (·.id))
        []) g
      fun pending g' => pending = [] ∧
        ChecksCallee g g' b pre area x f r (pushCount area) post := by
  -- A literal is no argument, so none stands in front of the prologue.
  have hnone : ∀ lits args, area = lits ++ args → (∀ j ∈ lits, j.IsLiteral) → lits = [] := by
    rintro lits args rfl hlits
    rw [List.eq_nil_iff_forall_not_mem]
    intro j hj
    have hop := (harea j (by simp [hj])).1
    rw [(hlits j hj).1] at hop
    cases hop
  refine (runs_area (Q := fun lits _ g' => lits = [] ∧
    ChecksCallee g g' b pre area x f r (pushCount area) post) hl
    (fun j hj => .inl (harea j hj)) hcode (expectPushes_takes (.call f r) rfl) ?_ ?_).mono ?_
  · rintro lits args anchor others harea' hlits hanchor
    obtain rfl := hnone lits args harea' hlits
    obtain rfl : area = args := harea'
    exact (runs_prologue_call hl hcode hanchor).mono fun _ g' h => ⟨rfl, h⟩
  · rintro lits args g' ⟨rfl, o₁, p, c, o₂, -, he⟩
    exact ⟨he.listed, by simp⟩
  · rintro pending g' ⟨rfl, lits, args, -, -, -, -, h⟩
    exact ⟨rfl, h⟩

theorem runs_body {body : List Instr} (hb : BlockBody body) :
    ∀ (g : Graph) (pre post : List Instr), g.Listed → n ≤ g.instrs.size →
      g.code b = pre ++ (body ++ post) → (∀ i ∈ body, i.op.isPrim = true) →
      Runs (backward (body.map (·.id)) []) g fun pending g' => pending = [] ∧
        ∃ body', Framed n b body body' ∧ Edits g g' b (pre ++ (body' ++ post)) := by
  induction hb with
  | nil =>
    intro g pre post hl _ hcode _
    exact Runs.pure ⟨rfl, [], .nil, ⟨hl, hcode, fun _ _ => rfl, rfl, fun _ => rfl, le_rfl⟩⟩
  | @simple i rest hs _ ih =>
    intro g pre post hl hn hcode hprim
    rw [List.map_cons, backward_cons]
    have hcode' : g.code b = (pre ++ [i]) ++ (rest ++ post) := by simp [hcode]
    refine (ih g (pre ++ [i]) post hl hn hcode' fun j hj => hprim j (by simp [hj])).bind ?_
    rintro _ g₁ ⟨rfl, rest', hframed, he⟩
    have hmem : i ∈ g₁.code b := by simp [he.code]
    refine Runs.instrOf he.listed hmem ?_
    have hskip : expectPushes [] i = pure [] := by
      unfold expectPushes
      have hi := hprim i (by simp)
      generalize i.op = op, i.inputs = ins at hs hi
      cases hs <;> rfl
    rw [hskip]
    refine Runs.pure ⟨rfl, i :: rest', .simple hs (hprim i (by simp)) hframed, ?_⟩
    simpa using he
  | @call area rest i harea ht _ ih =>
    intro g pre post hl hn hcode hprim
    have hsplit : (area ++ i :: rest).map (·.id) = (area ++ [i]).map (·.id) ++ rest.map (·.id) := by
      simp
    rw [hsplit, backward_append]
    have hcode' : g.code b = (pre ++ (area ++ [i])) ++ (rest ++ post) := by simp [hcode]
    refine (ih g _ post hl hn hcode' fun j hj => hprim j (by simp [hj])).bind ?_
    rintro _ g₁ ⟨rfl, rest', hframed, he⟩
    have hcode₁ : g₁.code b = pre ++ (area ++ i :: (rest' ++ post)) := by simp [he.code]
    have harea' : ∀ j ∈ area, j.IsPush ∨ j.IsLiteral := fun j hj =>
      (harea j hj).imp_right fun h => h.1
    have hle := hn.trans he.instrs
    obtain ⟨x, op, ins, b'⟩ := i
    obtain rfl : b' = b := he.listed.block_of_mem (i := ⟨x, op, ins, b'⟩) (by simp [hcode₁])
    have hstub (hop : op = .prim .callStub) : Runs (backward (List.map (·.id) (area ++
        [(⟨x, op, ins, b'⟩ : Instr)])) []) g₁ fun pending g' => pending = [] ∧ ∃ body',
          Framed n b' (area ++ ⟨x, op, ins, b'⟩ :: rest) body' ∧
          Edits g g' b' (pre ++ (body' ++ post)) := by
      refine (runs_stub he.listed hop harea' ht hcode₁).mono ?_
      rintro _ g₂ ⟨rfl, lits, args, rfl, hlits, hcount, o, ho, he₂⟩
      refine ⟨rfl, lits ++ openInstr b' o (pushCount args) :: (args ++ ⟨x, op, ins, b'⟩ :: rest'),
        ?_, ?_⟩
      · rw [List.append_assoc]
        exact .literals hlits (.stub (fun j hj => harea' j (by simp [hj])) hop (hcount ▸ ht)
          (hle.trans ho) hframed)
      · rw [hcount]
        simpa using he.trans he₂
    cases ht with
    | construct f =>
      have : false = true := hprim ⟨x, .script .construct, [.value f, raw (pushCount area)], b'⟩ (by simp)
      cases this
    | stub => exact hstub rfl
    | cache => exact hstub rfl
    | call f r =>
      have hpush : ∀ j ∈ area, j.IsPush := fun j hj => (harea j hj).resolve_right fun h => h.2 rfl
      refine (runs_call he.listed hpush hcode₁).mono ?_
      rintro _ g₂ ⟨rfl, o₁, p, c, o₂, ⟨h₁, h₂, h₃, h₄⟩, he₂⟩
      refine ⟨rfl, _, .call hpush (hle.trans h₁) (hle.trans h₂) (hle.trans h₃) (hle.trans h₄)
        hframed, ?_⟩
      simpa using he.trans he₂

end

/-! ### Graphs -/

/-- Code of a block before and after the last pass. -/
def Frames (g : Graph) (b : BlockId) (code : List Instr) : Prop :=
  ∃ heads body body' tail, g.Form b heads body tail ∧ Framed g.instrs.size b body body' ∧
    code = heads ++ (body' ++ tail)

section

variable {g g' : Graph} {b : BlockId} {n : Nat} {xs ys : List Instr}

theorem Staged.isPrim (h : Staged 6 g) {i : Instr} (hi : i ∈ g.code b) : i.op.isPrim = true := by
  have hlow := h.low b i hi
  cases hop : i.op with
  | prim => rfl
  | script s =>
    have := hlow s hop
    cases s <;> simp [stage] at this

theorem runs_calls (h : Staged 6 g) :
    Runs (g.blockIds.forM lowerCalls) g fun _ g' => Changes (Frames g) g g' := by
  refine runs_pass (I := fun _ => True) h.ssa.listed trivial
    fun b hb g₁ hl _ hn hsize hcode => ?_
  obtain ⟨heads, body, tail, hf⟩ := h.forms b hb
  obtain ⟨B, hB, hlist, -⟩ := block_of_lt (hb.trans_eq hsize.symm)
  have hprim : ∀ i ∈ heads ++ (body ++ tail), i.op.isPrim = true := fun i hi =>
    h.isPrim (hf.code ▸ hi)
  have htail : ∀ j ∈ tail, Idle j := by
    have hends := hf.ends
    generalize g.successors b = next at hends
    cases hends with
    | ret hop _ => simpa using idle_of_op hop (by simp) (by simp) (by simp)
    | @branch i _ _ _ hop _ _ _ =>
      rcases hop with hop | hop
      · have := hprim i (by simp)
        rw [hop] at this
        cases this
      · simpa using idle_of_op hop (by simp) (by simp) (by simp)
    | jump hall _ =>
      intro j hj
      rcases hall j hj with hp | hlit
      · exact idle_of_op hp.1 (by simp) (by simp) (by simp)
      · exact idle_of_isLiteral hlit
  rw [hf.code] at hcode
  refine Runs.get (Runs.ask hB ?_)
  rw [hlist, ← hl.code_ids b, hcode, List.map_append, List.map_append]
  change Runs (backward (heads.map (·.id) ++ (body.map (·.id) ++ tail.map (·.id))) [] >>= _) g₁ _
  refine Runs.bind (P := fun pending g₂ => pending = [] ∧ ∃ body',
    Framed g.instrs.size b body body' ∧ Edits g₁ g₂ b (heads ++ (body' ++ tail))) ?_ ?_
  · rw [backward_append, backward_append]
    refine Runs.bind (P := fun pending g₂ => pending = [] ∧ ∃ body',
      Framed g.instrs.size b body body' ∧ Edits g₁ g₂ b (heads ++ (body' ++ tail))) ?_ ?_
    · refine (runs_idle (b := b) hl fun j hj => ⟨htail j hj, by simp [hcode, hj]⟩).bind ?_
      rintro _ _ ⟨rfl, rfl⟩
      exact runs_body hf.body _ heads tail hl hn hcode fun i hi => hprim i (by simp [hi])
    · rintro _ g₂ ⟨rfl, body', hframed, he⟩
      refine (runs_idle (b := b) he.listed fun j hj => ⟨?_, by simp [he.code, hj]⟩).mono ?_
      · exact idle_of_op (hf.heads j hj).1 (by simp) (by simp) (by simp)
      · rintro _ _ ⟨rfl, rfl⟩
        exact ⟨rfl, body', hframed, he⟩
  · rintro _ g₂ ⟨rfl, body', hframed, he⟩
    exact Runs.pure ⟨trivial, _, he, heads, body, body', tail, hf, hframed, rfl⟩

end

end ScriptEngine.Lowering
