import ScriptEngine.Proofs.Meaning.Functions

/-!
The walk over a tree, form by form: the steps that build an expression or a statement simulate its
evaluation.
-/

namespace ScriptEngine.Meaning

open State Construction Syntax

section

variable {V σ α β γ δ : Type} {S : Site V σ} {known : Names} {fs fs' : List Function}
  {Γ : List (InstrId × V)}

/-- The last of several steps meets no function. -/
theorem Simulates.last {m : ConstructM α} {f : α → ConstructM γ} {e : EvalM V σ β}
    {k : β → EvalM V σ δ} {R : Reading α β V} {R' : Reading γ δ V}
    (h₁ : Simulates S known fs Γ m e R)
    (h₂ : ∀ a b, R.agree a b → Simulates S known [] (R.pairs a b ++ Γ) (f a) (k b) R') :
    Simulates S known fs Γ (m >>= f) (e >>= k) R' := by
  rw [← List.append_nil fs]
  exact h₁.bind h₂

theorem simulates_of_fails {m : ConstructM α} {e : EvalM V σ β} {R : Reading α β V}
    (h : ∀ c a c', m c ≠ .ok a c') : Simulates S known fs Γ m e R :=
  fun c a c' _ _ hm => absurd hm (h c a c')

/-! ### Expressions with arms -/

/-- The steps of a conditional expression after its test. -/
theorem simulates_conditional {test : InstrId} {v : V} {yes no : ConstructM InstrId}
    {e₁ e₂ : EvalM V σ V} (hv : (test, v) ∈ Γ)
    (h₁ : Simulates S known fs Γ yes e₁ Reading.value)
    (h₂ : Simulates S known fs' Γ no e₂ Reading.value) :
    Simulates S known (fs ++ fs') Γ (do
      let (yesBlock, noBlock) ← split test
      let env := (← get).frame.env
      let yesArm ← resultArm yesBlock env yes
      let noArm ← resultArm noBlock env no
      join [yesArm, noArm]
      takeResult) (do if ← S.truth v then e₁ else e₂) Reading.value := by
  have h := simulates_choice true hv h₁ h₂
  simpa only [fork, resultArm, bind_assoc, if_true, pure_bind] using h

/-- The steps of a logical expression after its left side. -/
theorem simulates_logical (sign : LogicalSign) {left : InstrId} {v : V}
    {right : ConstructM InstrId} {e : EvalM V σ V} (hv : (left, v) ∈ Γ)
    (h : Simulates S known fs Γ right e Reading.value) :
    Simulates S known fs Γ (do
      let (yes, no) ← split left
      let env := (← get).frame.env
      let (long, short) ← match sign with
        | .and => pure (yes, no)
        | .or => pure (no, yes)
        | .coalesce => unsupported "Operator ??"
      let shortArm ← resultArm short env (pure left)
      let longArm ← resultArm long env right
      join [shortArm, longArm]
      takeResult) (do
        let holds ← S.truth v
        match sign with
        | .and => if holds then e else return v
        | .or => if holds then return v else e
        | .coalesce => return v) Reading.value := by
  have hshort : Simulates S known [] Γ (pure left) (pure v) Reading.value :=
    Simulates.pure trivial (fun w _ p hp => ⟨_, hv, by simp_all [Reading.value]⟩)
      (by simpa [Reading.value] using hv)
  cases sign with
  | and =>
    have hall := simulates_choice false hv hshort h
    have he : (do if (← S.truth v) = false then pure v else e : EvalM V σ V) =
        (do if ← S.truth v then e else pure v) := by
      congr 1
      funext holds
      cases holds <;> rfl
    rw [he] at hall
    simpa only [fork, resultArm, bind_assoc, pure_bind, Bool.false_eq_true, if_false,
      List.nil_append] using hall
  | or =>
    have hall := simulates_choice true hv hshort h
    simpa only [fork, resultArm, bind_assoc, pure_bind, if_true, List.nil_append] using hall
  | coalesce =>
    apply simulates_of_fails
    intro c a c' hm
    obtain ⟨_, _, -, hm⟩ := bind_eq_ok.mp hm
    obtain ⟨_, _, -, hm⟩ := bind_eq_ok.mp hm
    obtain ⟨_, _, hthrow, -⟩ := bind_eq_ok.mp hm
    exact throw_eq_ok.mp hthrow

/-- The steps of a conditional statement after its test. -/
theorem executes_branch {test : InstrId} {v : V} {yes no : ConstructM Unit}
    {e₁ e₂ : EvalM V σ (Exit V)} {after₁ after₂ : Option Names} (hv : (test, v) ∈ Γ)
    (h₁ : Executes S known fs Γ after₁ false yes e₁)
    (h₂ : Executes S known fs' Γ after₂ false no e₂) :
    Executes S known (fs ++ fs') Γ (meet after₁ after₂) false (do
      let (yesBlock, noBlock) ← split test
      let env := (← get).frame.env
      resume yesBlock env
      yes
      let yesArm ← capture
      resume noBlock env
      no
      join [yesArm, ← capture]) (do if ← S.truth v then e₁ else e₂) := by
  have h := executes_fork true hv h₁ h₂
  simpa only [fork, if_true] using h

/-- The value of a script is that of its last expression statement so far. -/
theorem executes_complete {id : InstrId} {v : V} (hv : (id, v) ∈ Γ) :
    Executes S known [] Γ (some known) false
      (do if (← get).frame.topLevel then envInsert .completion id)
      (goOn (do if S.topLevel then modify fun s => { s with completion := v })) := by
  cases ht : S.topLevel with
  | false =>
    refine simulates_return.goOn.of_eq fun c hr => ?_
    change (if c.frame.topLevel = true then envInsert .completion id else pure ()) c = _
    rw [hr.topLevel, ht]
    rfl
  | true =>
    intro c u c' hr hb h
    have h' : (if c.frame.topLevel = true then envInsert .completion id else pure ()) c =
      .ok u c' := h
    rw [hr.topLevel, ht, if_pos rfl] at h'
    obtain rfl := envInsert_eq_ok.mp h'
    have hready : Ready S.topLevel known false
        (withEnv c (c.frame.env.insert .completion id)) :=
      hr.insert (hb _ hv) (by simp) (fun _ => rfl) (by simp)
    refine ⟨builds_withEnv _ hr.valid, hr.running, fun k hk => ?_, ?_⟩
    · cases hk
      exact hready
    · intro functions G O _ s ℓ hs hΓ
      refine ⟨rfl, s, Leads.refl, ⟨fun name => ?_, fun _ => ?_, hs.world⟩, Kept.refl _ _, by simp⟩
      · change valueIn _ (c.frame.env.insert .completion id) _ _ = ℓ.vars name
        rw [valueIn_insert, if_neg (by simp), hs.vars]
      · change valueIn _ (c.frame.env.insert .completion id) _ _ = v
        rw [valueIn_insert, if_pos rfl]
        exact hΓ _ hv

end

/-! ### Forms that depend on what stands inside them -/

section

variable {V σ : Type} {S : Site V σ} {known : Names} {fs fs' : List Function}
  {Γ : List (InstrId × V)}

/-- A deletion of something that is no place only evaluates it. -/
theorem simulates_deleteValue {operand : Expr}
    (h : Simulates S known fs Γ (expression operand) (S.expression known operand) Reading.value)
    (hm : ∀ object name, operand ≠ .member object name)
    (hi : ∀ object key, operand ≠ .index object key) (hn : ∀ text, operand ≠ .name text) :
    Simulates S known fs Γ (expression (.unary .delete operand))
      (S.expression known (.unary .delete operand)) Reading.value := by
  have hsteps : expression (.unary .delete operand) = (do
      discard (expression operand)
      literal (.bool true)) := by
    rw [expression]
    · exact fun object name h => hm object name h
    · exact fun object key h => hi object key h
    · exact fun text h => hn text h
  have heval : S.expression known (.unary .delete operand) = (do
      discard (S.expression known operand)
      S.constant (.bool true)) := by
    rw [Site.expression]
    · exact fun object name h => hm object name h
    · exact fun object key h => hi object key h
    · exact fun text h => hn text h
  rw [hsteps, heval]
  exact h.discard.last fun _ _ _ => simulates_literal _

/-- A call of something that is no property has no receiver. -/
theorem simulates_plainCall {callee : Expr} {args : List Element}
    (h : Simulates S known fs Γ (expression callee) (S.expression known callee) Reading.value)
    (hargs : ∀ Δ, Simulates S known fs' Δ (arguments args) (S.arguments known args)
      Reading.values)
    (hm : ∀ object name, callee ≠ .member object name)
    (hi : ∀ object key, callee ≠ .index object key) :
    Simulates S known (fs ++ fs') Γ (expression (.call callee args))
      (S.expression known (.call callee args)) Reading.value := by
  have hsteps : expression (.call callee args) = (do
      let callee ← expression callee
      let receiver ← literal .undefined
      callWith callee receiver (← arguments args)) := by
    rw [expression]
    · exact fun object name h => hm object name h
    · exact fun object key h => hi object key h
  have heval : S.expression known (.call callee args) = (do
      let callee ← S.expression known callee
      let receiver ← S.constant .undefined
      S.ask (.call callee receiver (← S.arguments known args))) := by
    rw [Site.expression]
    · exact fun object name h => hm object name h
    · exact fun object key h => hi object key h
  rw [hsteps, heval]
  refine h.bind fun f x _ => ?_
  refine (simulates_literal _).bind fun r y _ => ?_
  refine (hargs _).last fun ids vs hlen => ?_
  exact simulates_callWith (by simp [Reading.value]) (by simp [Reading.value]) hlen
    (by simp [Reading.values])

/-- A call of a property, whose object is the receiver. -/
theorem simulates_methodCall {object : InstrId} {o : V} {key : ConstructM InstrId}
    {k : EvalM V σ V} {args : List Element} (ho : (object, o) ∈ Γ)
    (hkey : Simulates S known fs Γ key k Reading.value)
    (hargs : ∀ Δ, Simulates S known fs' Δ (arguments args) (S.arguments known args)
      Reading.values) :
    Simulates S known (fs ++ fs') Γ
      (do
        let key ← key
        callWith (← loadProperty object key) object (← arguments args))
      (do
        let key ← k
        let callee ← S.ask (.loadProperty o key)
        S.ask (.call callee o (← S.arguments known args))) Reading.value := by
  refine hkey.bind fun i x _ => ?_
  refine (simulates_loadProperty (by simp [ho]) (by simp [Reading.value])).bind fun f y _ => ?_
  refine (hargs _).last fun ids vs hlen => ?_
  exact simulates_callWith (by simp [Reading.value]) (by simp [ho]) hlen (by simp [Reading.values])

theorem simulates_property {object key : InstrId} {o k : V} (ho : (object, o) ∈ Γ)
    (hk : (key, k) ∈ Γ) :
    Simulates S known [] Γ (pure (.property object key)) (pure (.property o k))
      (Reading.place known) := by
  refine Simulates.pure trivial ?_ ?_
  · rintro (_ | _ | ⟨o', k'⟩) hagree p hp
    · cases hagree
    · cases hagree
    · rcases List.mem_pair.mp hp with rfl | rfl
      · exact ⟨_, ho, rfl⟩
      · exact ⟨_, hk, rfl⟩
  · intro p hp
    rcases List.mem_pair.mp hp with rfl | rfl
    · exact ho
    · exact hk

theorem simulates_consArgument {id : InstrId} {v : V} {ids : List InstrId} {vs : List V}
    (hlen : ids.length = vs.length) (hids : ids.zip vs ⊆ Γ) (hid : (id, v) ∈ Γ) :
    Simulates S known [] Γ (pure (id :: ids)) (pure (v :: vs)) Reading.values := by
  refine Simulates.pure (by simpa [Reading.values] using hlen) ?_ ?_
  · intro ws _ p hp
    rcases List.mem_cons.mp (List.of_mem_zip hp).1 with h | h
    · exact ⟨_, hid, h.symm⟩
    · obtain ⟨i, hi, he⟩ := List.mem_iff_getElem.mp h
      refine ⟨(ids[i], vs[i]), hids ?_, he⟩
      rw [List.mem_iff_getElem]
      exact ⟨i, by simp; omega, by simp⟩
  · intro p hp
    rcases List.mem_cons.mp hp with rfl | h
    · exact hid
    · exact hids h

/-- The key of a property is a constant. -/
theorem simulates_keyConst {α β : Type} {R : Reading α β V} {f : Const → ConstructM α}
    {e : EvalM V σ β} (key : Key) (h : Simulates S known fs Γ (f (Site.keyConst key)) e R) :
    Simulates S known fs Γ (Construction.keyConst key >>= f) e R := by
  cases key with
  | text s =>
    rw [Construction.keyConst, pure_bind]
    exact h
  | number n =>
    rw [Construction.keyConst, pure_bind]
    exact h
  | computed =>
    apply simulates_of_fails
    intro c a c' hm
    obtain ⟨_, _, hthrow, -⟩ := bind_eq_ok.mp hm
    exact throw_eq_ok.mp hthrow

/-- An operation with the old value of a place, whose result becomes its new value. -/
theorem simulates_update (op : BinaryOp) {place : Construction.Place} {place' : Place V}
    {value : ConstructM InstrId} {e : EvalM V σ V}
    (hp : (Reading.place known).agree place place')
    (hΓ : (Reading.place known).pairs place place' ⊆ Γ)
    (h : ∀ Δ, Simulates S known fs Δ value e Reading.value) :
    Simulates S known fs Γ
      (do
        let old ← place.read
        let right ← value
        place.write (← applyBinary op old right))
      (do
        let old ← S.readPlace known place'
        let right ← e
        S.writePlace (← S.ask (.binary op old right)) place') Reading.value := by
  refine (simulates_read hp hΓ).bind fun old x _ => ?_
  refine (h _).last fun right y _ => ?_
  refine (simulates_applyBinary (by simp [Reading.value]) (by simp [Reading.value])).last
    fun id v _ => ?_
  exact simulates_write hp (fun _ h => by simp [hΓ h]) (by simp [Reading.value])

theorem simulates_assign (sign : AssignSign) {target : Target} {value : Expr}
    (hplace : Simulates S known fs Γ (placeFor target) (S.placeFor known target)
      (Reading.place known))
    (h : ∀ Δ, Simulates S known fs' Δ (expression value) (S.expression known value)
      Reading.value) :
    Simulates S known (fs ++ fs') Γ (expression (.assign sign target value))
      (S.expression known (.assign sign target value)) Reading.value := by
  rw [expression, Site.expression]
  cases sign with
  | plain =>
    simp only [Construction.compound?, Site.compound?, pure_bind]
    refine hplace.bind fun place place' hp => ?_
    refine (h _).last fun id v _ => ?_
    exact simulates_write hp (fun _ h => by simp [h]) (by simp [Reading.value])
  | add =>
    simp only [Construction.compound?, Site.compound?, pure_bind]
    exact hplace.bind fun place place' hp => simulates_update .add hp (by simp) h
  | sub =>
    simp only [Construction.compound?, Site.compound?, pure_bind]
    exact hplace.bind fun place place' hp => simulates_update .sub hp (by simp) h
  | mul =>
    simp only [Construction.compound?, Site.compound?, pure_bind]
    exact hplace.bind fun place place' hp => simulates_update .mul hp (by simp) h
  | other spelling =>
    apply simulates_of_fails
    intro c a c' hm
    obtain ⟨_, _, hthrow, -⟩ := bind_eq_ok.mp hm
    exact throw_eq_ok.mp hthrow

end

/-! ### Statements -/

section

variable {V σ : Type} {S : Site V σ} {known : Names} {fs fs' : List Function}
  {Γ : List (InstrId × V)}

theorem executes_throw {error : SourceError} {after : Option Names} {carry : Bool}
    {e : EvalM V σ (Exit V)} :
    Executes S known fs Γ after carry (throw error : ConstructM Unit) e := by
  intro c u c' _ _ h
  exact (throw_eq_ok.mp h).elim

/-- A function returns the value of an expression. -/
theorem Simulates.returns {m : ConstructM InstrId} {e : EvalM V σ V}
    (h : Simulates S known fs Γ m e Reading.value) :
    Executes S known fs Γ none false (m >>= ret)
      (Outcome.exit <$> (do return Outcome.returned (← e) : EvalM V σ (Outcome V))) := by
  rw [← List.append_nil fs, map_bind]
  exact h.executes fun id v _ => executes_ret (by simp [Reading.value])

/-- Functions are bound before the other statements run. -/
theorem Executes.declared {m : ConstructM Unit} {e : EvalM V σ Unit} {names rest : Names}
    {n : ConstructM Unit} {k : EvalM V σ Unit}
    (h₁ : Executes S known fs Γ (some (declare S.topLevel names known)) false m (goOn e))
    (h₂ : Executes S (declare S.topLevel names known) fs' Γ
      (some (declare S.topLevel rest (declare S.topLevel names known))) false n (goOn k)) :
    Executes S known (fs ++ fs') Γ (some (declare S.topLevel (names ++ rest) known)) false
      (m >>= fun _ => n) (goOn (e >>= fun _ => k)) := by
  have h := h₁.andThen h₂
  rw [andThen_goOn] at h
  rw [goOn, bind_assoc]
  refine h.congr fun name => ?_
  unfold declare
  cases S.topLevel with
  | true => simp
  | false =>
    simp only [Bool.false_eq_true, if_false, List.mem_append]
    tauto

theorem goOn_exit (e : EvalM V σ Unit) :
    Outcome.exit <$> (e >>= fun _ => pure Outcome.next) = goOn e := by
  rw [map_bind]
  rfl

theorem exit_complete (v : V) :
    Outcome.exit <$> (do
      if S.topLevel then modify fun s => { s with completion := v }
      return Outcome.next : EvalM V σ (Outcome V)) =
    goOn (do if S.topLevel then modify fun s => { s with completion := v }) := by
  cases S.topLevel <;> rfl

theorem exit_choice (v : V) (e₁ e₂ : EvalM V σ (Outcome V)) :
    Outcome.exit <$> (do if ← S.truth v then e₁ else e₂) =
      (do if ← S.truth v then Outcome.exit <$> e₁ else Outcome.exit <$> e₂) := by
  rw [map_bind]
  congr 1
  funext holds
  cases holds <;> rfl

theorem run_exit_bind (e : EvalM V σ (Outcome V)) (k : Outcome V → EvalM V σ (Outcome V))
    (ℓ : Locals V σ) :
    (Outcome.exit <$> (e >>= k)).run ℓ = (Outcome.exit <$> k (e.run ℓ).1).run (e.run ℓ).2 := rfl

/-- Statements after one that may go on. -/
theorem exit_statements (s : Stmt) (rest : List Stmt) {k : Names}
    (hk : scopeAfter S.topLevel known s = some k) :
    Outcome.exit <$> S.statements known (s :: rest) =
      andThen (Outcome.exit <$> S.statement known s) (Outcome.exit <$> S.statements k rest) := by
  funext ℓ
  refine Eq.trans ?_ (run_exit_andThen (S.statement known s) _ ℓ).symm
  rw [Site.statements, hk]
  refine (run_exit_bind (S.statement known s) _ ℓ).trans ?_
  cases (S.statement known s).run ℓ with
  | mk outcome ℓ₁ => cases outcome <;> rfl

theorem exit_statements_none (s : Stmt) (rest : List Stmt)
    (hk : scopeAfter S.topLevel known s = none) :
    Outcome.exit <$> S.statements known (s :: rest) =
      andThen (Outcome.exit <$> S.statement known s) (pure (.next none)) := by
  funext ℓ
  refine Eq.trans ?_ (run_exit_andThen (S.statement known s) _ ℓ).symm
  rw [Site.statements, hk]
  refine (run_exit_bind (S.statement known s) _ ℓ).trans ?_
  cases (S.statement known s).run ℓ with
  | mk outcome ℓ₁ => cases outcome <;> rfl

theorem statements_of_done {c : Construction} (h : c.frame.done = true) :
    ∀ list : List Stmt, statements list c = .ok ⟨⟩ c
  | [] => by rw [statements]; rfl
  | s :: rest => by
    rw [statements]
    change (if (!c.frame.done) = true then statement s >>= fun _ => statements rest
      else pure ()) c = _
    rw [h]
    rfl

theorem statements_of_running {c : Construction} (h : c.frame.done = false) (s : Stmt)
    (rest : List Stmt) :
    statements (s :: rest) c = (statement s >>= fun _ => statements rest) c := by
  rw [statements]
  change (if (!c.frame.done) = true then statement s >>= fun _ => statements rest
    else pure ()) c = _
  rw [h]
  rfl

end

/-- A call binds the parameters, runs the body, and returns `undefined` at its end. -/
theorem executes_call {ps : Params} {content : Body} {after : Option Names}
    (ht : S.topLevel = false)
    (hbody : Executes S (ps.items.flatMap Binding.names) fs [] after false (body content)
      (Outcome.exit <$> S.body (ps.items.flatMap Binding.names) content)) :
    Executes S [] fs [] none false (do params ps; body content; retUndefined)
      (S.call ps content) := by
  have hend := hbody.ended (fun _ => executes_retUndefined) fun c => retUndefined_of_done
  have hall := (executes_params ht ps).andThen hend
  rw [andThen_goOn] at hall
  exact hall

/-- A statement that declares no function is not hoisted. -/
theorem executes_hoist_other {s : Stmt} {rest : List Stmt} (hs : ∀ f, s ≠ .function f)
    (h : Executes S known (hoistedFunctions rest) []
      (some (declare S.topLevel (hoisted rest) known)) false (hoist rest) (goOn (S.hoist rest))) :
    Executes S known (hoistedFunctions (s :: rest)) []
      (some (declare S.topLevel (hoisted (s :: rest)) known)) false (hoist (s :: rest))
      (goOn (S.hoist (s :: rest))) := by
  have h₁ : hoistedFunctions (s :: rest) = hoistedFunctions rest := by
    rw [hoistedFunctions]
    exact fun f => hs f
  have h₂ : hoisted (s :: rest) = hoisted rest := by
    rw [hoisted]
    exact fun name ps content => hs _
  have h₃ : hoist (s :: rest) = hoist rest := by
    rw [hoist]
    exact fun name ps content => hs _
  have h₄ : S.hoist (s :: rest) = S.hoist rest := by
    rw [Site.hoist]
    exact fun name ps content => hs _
  rw [h₁, h₂, h₃, h₄]
  exact h

/-- A function that is declared is bound to its name, if it has one. -/
theorem executes_hoist_function {name : Option String} {ps : Params} {content : Body}
    {rest : List Stmt}
    (hclosure : Simulates S known fs [] (Construction.closure (.mk name ps content))
      (S.ask (.closure (.mk name ps content))) Reading.value)
    (h : ∀ known, Executes S known fs' [] (some (declare S.topLevel (hoisted rest) known)) false
      (hoist rest) (goOn (S.hoist rest))) :
    Executes S known (fs ++ fs') [] (some (declare S.topLevel
      (hoisted (.function (.mk name ps content) :: rest)) known)) false
      (hoist (.function (.mk name ps content) :: rest))
      (goOn (S.hoist (.function (.mk name ps content) :: rest))) := by
  rw [hoist, Site.hoist, goOn, bind_assoc]
  refine hclosure.executes fun id v _ => ?_
  cases name with
  | none =>
    rw [hoisted]
    · exact (h known).weaken (List.nil_subset _)
    · simp
  | some name =>
    rw [hoisted]
    exact Executes.declared (executes_bind (by simp [Reading.value]))
      ((h _).weaken (List.nil_subset _))

/-! ### Ways that return -/

mutual

/-- Whether a statement returns on all ways does not depend on the names that are local. -/
theorem isSome_scopeAfter (top : Bool) (known : Names) :
    ∀ s : Stmt, (scopeAfter top known s).isSome = (scopeAfter true [] s).isSome
  | .declare _ | .ret _ | .expression _ | .function _ | .empty | .debugger | .loop
  | .unsupported => by simp [scopeAfter]
  | .block list => by
    rw [scopeAfter, scopeAfter, isSome_scopeAfterAll, isSome_scopeAfterAll true (declare _ _ _)]
  | .branch _ yes no => by
    rw [scopeAfter, scopeAfter, isSome_meet, isSome_meet, isSome_scopeAfter top known yes,
      isSome_scopeAfterElse top known no]

theorem isSome_scopeAfterElse (top : Bool) (known : Names) :
    ∀ s : Option Stmt, (scopeAfterElse top known s).isSome = (scopeAfterElse true [] s).isSome
  | some s => by
    rw [scopeAfterElse, scopeAfterElse]
    exact isSome_scopeAfter top known s
  | none => by simp [scopeAfterElse]

theorem isSome_scopeAfterAll (top : Bool) (known : Names) :
    ∀ list : List Stmt,
      (scopeAfterAll top known list).isSome = (scopeAfterAll true [] list).isSome
  | [] => by simp [scopeAfterAll]
  | s :: rest => by
    have h := isSome_scopeAfter top known s
    rw [scopeAfterAll, scopeAfterAll]
    cases h₁ : scopeAfter top known s with
    | none =>
      cases h₂ : scopeAfter true [] s with
      | none => rfl
      | some _ => rw [h₁, h₂] at h; cases h
    | some k =>
      cases h₂ : scopeAfter true [] s with
      | none => rw [h₁, h₂] at h; cases h
      | some k' =>
        simp only
        rw [isSome_scopeAfterAll top k rest, isSome_scopeAfterAll true k' rest]

end

/-! ### The walk -/

mutual

theorem simulates_expression {V σ : Type} (S : Site V σ) (known : Names) (Γ : List (InstrId × V)) :
    ∀ x : Expr, Simulates S known (Expr.functions x) Γ (expression x) (S.expression known x)
      Reading.value
  | .number _ => by
    rw [expression, Site.expression, Expr.functions]
    exact simulates_literal _
  | .text _ => by
    rw [expression, Site.expression, Expr.functions]
    exact simulates_literal _
  | .bool _ => by
    rw [expression, Site.expression, Expr.functions]
    exact simulates_literal _
  | .null => by
    rw [expression, Site.expression, Expr.functions]
    exact simulates_literal _
  | .name text => by
    rw [expression, Site.expression, Expr.functions]
    exact simulates_loadName text
  | .this => by
    rw [expression, Site.expression, Expr.functions]
    exact simulates_receiver
  | .binary sign left right => by
    rw [expression, Site.expression, Expr.functions]
    refine (simulates_expression S known Γ left).bind fun l x _ => ?_
    refine (simulates_expression S known _ right).last fun r y _ => ?_
    exact simulates_applySign sign (by simp [Reading.value]) (by simp [Reading.value])
  | .logical sign left right => by
    rw [expression, Site.expression, Expr.functions]
    refine (simulates_expression S known Γ left).bind fun l x _ => ?_
    exact simulates_logical sign (by simp [Reading.value])
      (simulates_expression S known _ right)
  | .member object name => by
    rw [expression, Site.expression, Expr.functions]
    refine (simulates_expression S known Γ object).last fun o x _ => ?_
    refine (simulates_literal (.text name)).last fun k y _ => ?_
    exact simulates_loadProperty (by simp [Reading.value]) (by simp [Reading.value])
  | .index object key => by
    rw [expression, Site.expression, Expr.functions]
    refine (simulates_expression S known Γ object).bind fun o x _ => ?_
    refine (simulates_expression S known _ key).last fun k y _ => ?_
    exact simulates_loadProperty (by simp [Reading.value]) (by simp [Reading.value])
  | .conditional test yes no => by
    rw [expression, Site.expression, Expr.functions]
    refine (simulates_expression S known Γ test).bind fun t x _ => ?_
    exact simulates_conditional (by simp [Reading.value]) (simulates_expression S known _ yes)
      (simulates_expression S known _ no)
  | .paren inner => by
    rw [expression, Site.expression, Expr.functions]
    exact simulates_expression S known Γ inner
  | .sequence first second => by
    rw [expression, Site.expression, Expr.functions]
    exact (simulates_expression S known Γ first).discard.bind fun _ _ _ =>
      simulates_expression S known _ second
  | .privateMember => by
    rw [expression]
    exact simulates_throw
  | .unsupported => by
    rw [expression]
    exact simulates_throw
  | .unary .minus operand => by
    rw [expression, Site.expression, Expr.functions]
    exact (simulates_expression S known Γ operand).last fun _ _ _ =>
      simulates_applyUnary (by simp [Reading.value])
  | .unary .not operand => by
    rw [expression, Site.expression, Expr.functions]
    exact (simulates_expression S known Γ operand).last fun _ _ _ =>
      simulates_applyUnary (by simp [Reading.value])
  | .unary .void operand => by
    rw [expression, Site.expression, Expr.functions]
    exact (simulates_expression S known Γ operand).discard.last fun _ _ _ => simulates_literal _
  | .unary (.other spelling) operand => by
    rw [expression]
    exact simulates_throw
  | .unary .delete operand => by
    cases operand with
    | member object name =>
      rw [expression, Site.expression, Expr.functions, Expr.functions]
      refine (simulates_expression S known Γ object).last fun o x _ => ?_
      refine (simulates_literal (.text name)).last fun k y _ => ?_
      exact simulates_deleteProperty (by simp [Reading.value]) (by simp [Reading.value])
    | index object key =>
      rw [expression, Site.expression, Expr.functions, Expr.functions]
      refine (simulates_expression S known Γ object).bind fun o x _ => ?_
      refine (simulates_expression S known _ key).last fun k y _ => ?_
      exact simulates_deleteProperty (by simp [Reading.value]) (by simp [Reading.value])
    | name text =>
      rw [Expr.functions, Expr.functions]
      exact simulates_deleteName text
    | _ =>
      rw [Expr.functions]
      exact simulates_deleteValue (simulates_expression S known Γ _) (by simp) (by simp) (by simp)
  | .assign sign target value => by
    rw [Expr.functions]
    exact simulates_assign sign (simulates_placeFor S known Γ target) fun Δ =>
      simulates_expression S known Δ value
  | .call callee args => by
    cases callee with
    | member object name =>
      rw [expression, Site.expression, Expr.functions, Expr.functions]
      refine (simulates_expression S known Γ object).bind fun o x _ => ?_
      rw [← List.nil_append (elementFunctions args)]
      exact simulates_methodCall (by simp [Reading.value]) (simulates_literal (.text name))
        fun Δ => simulates_arguments S known Δ args
    | index object key =>
      rw [expression, Site.expression, Expr.functions, Expr.functions, List.append_assoc]
      refine (simulates_expression S known Γ object).bind fun o x _ => ?_
      exact simulates_methodCall (by simp [Reading.value]) (simulates_expression S known _ key)
        fun Δ => simulates_arguments S known Δ args
    | _ =>
      rw [Expr.functions]
      exact simulates_plainCall (simulates_expression S known Γ _)
        (fun Δ => simulates_arguments S known Δ args) (by simp) (by simp)
  | .new callee args => by
    rw [expression, Site.expression, Expr.functions]
    refine (simulates_expression S known Γ callee).bind fun f x _ => ?_
    refine (simulates_arguments S known _ args).last fun ids vs hlen => ?_
    exact simulates_construct (by simp [Reading.value]) hlen (by simp [Reading.values])
  | .object list => by
    rw [expression, Site.expression, Expr.functions]
    have hobject : Simulates S known [] Γ (emit .object) (S.ask .object) Reading.value :=
      simulates_emit fun _ s _ _ => by simp [perform, request?]
    refine hobject.bind fun o x _ => ?_
    refine (simulates_properties S known _ o x (by simp [Reading.value]) list).last fun _ _ _ => ?_
    exact Simulates.pure trivial (fun w _ p hp => ⟨(o, x), by simp_all [Reading.value]⟩)
      (by simp [Reading.value])
  | .array list => by
    rw [expression, Site.expression, Expr.functions]
    have harray : Simulates S known [] Γ (emit .array [Builder.raw list.length])
        (S.ask (.array list.length)) Reading.value :=
      simulates_emit fun _ s _ _ => by simp [perform, request?, Builder.raw]
    refine harray.bind fun a x _ => ?_
    refine (simulates_elements S known _ a x (by simp [Reading.value]) 0 list).last
      fun _ _ _ => ?_
    exact Simulates.pure trivial (fun w _ p hp => ⟨(a, x), by simp_all [Reading.value]⟩)
      (by simp [Reading.value])
  | .function (.mk name ps content) => by
    rw [expression, Site.expression, Expr.functions, Function.functions]
    exact simulates_closure fun S ht => executes_call ht (executes_body S _ content)

theorem simulates_placeFor {V σ : Type} (S : Site V σ) (known : Names) (Γ : List (InstrId × V)) :
    ∀ x : Target, Simulates S known (Target.functions x) Γ (placeFor x) (S.placeFor known x)
      (Reading.place known)
  | .name text => by
    rw [placeFor, Site.placeFor, Target.functions]
    exact simulates_placeOf text
  | .member object name => by
    rw [placeFor, Site.placeFor, Target.functions]
    refine (simulates_expression S known Γ object).last fun o x _ => ?_
    refine (simulates_literal (.text name)).last fun k y _ => ?_
    exact simulates_property (by simp [Reading.value]) (by simp [Reading.value])
  | .index object key => by
    rw [placeFor, Site.placeFor, Target.functions]
    refine (simulates_expression S known Γ object).bind fun o x _ => ?_
    refine (simulates_expression S known _ key).last fun k y _ => ?_
    exact simulates_property (by simp [Reading.value]) (by simp [Reading.value])
  | .other => by
    rw [placeFor]
    exact simulates_throw

theorem simulates_arguments {V σ : Type} (S : Site V σ) (known : Names)
    (Γ : List (InstrId × V)) : ∀ x : List Element, Simulates S known (elementFunctions x) Γ
      (arguments x) (S.arguments known x) Reading.values
  | [] => by
    rw [arguments, Site.arguments, elementFunctions]
    exact Simulates.pure rfl (by simp [Reading.values]) (by simp [Reading.values])
  | .item value :: rest => by
    rw [arguments, Site.arguments, elementFunctions]
    refine (simulates_expression S known Γ value).bind fun id v _ => ?_
    refine (simulates_arguments S known _ rest).last fun ids vs hlen => ?_
    exact simulates_consArgument hlen (by simp [Reading.values]) (by simp [Reading.value])
  | .hole :: rest => by
    rw [arguments, Site.arguments, elementFunctions]
    exact simulates_arguments S known Γ rest
  | .spread :: rest => by
    rw [arguments]
    exact simulates_throw

theorem simulates_properties {V σ : Type} (S : Site V σ) (known : Names)
    (Γ : List (InstrId × V)) (object : InstrId) (o : V) (ho : (object, o) ∈ Γ) :
    ∀ x : List Property, Simulates S known (propertyFunctions x) Γ (properties object x)
      (S.properties known o x) Reading.nothing
  | [] => by
    rw [properties, Site.properties, propertyFunctions]
    exact simulates_return
  | .entry key value :: rest => by
    rw [properties, Site.properties, propertyFunctions]
    refine simulates_keyConst key ?_
    refine (simulates_expression S known Γ value).bind fun id v _ => ?_
    refine (simulates_literal (Site.keyConst key)).bind fun k y _ => ?_
    refine (simulates_storeProperty (by simp [ho]) (by simp [Reading.value])
      (by simp [Reading.value])).discard.bind fun _ _ _ => ?_
    exact simulates_properties S known _ object o (by simp [ho]) rest
  | .spread :: rest => by
    rw [properties]
    exact simulates_throw

theorem simulates_elements {V σ : Type} (S : Site V σ) (known : Names)
    (Γ : List (InstrId × V)) (array : InstrId) (o : V) (ho : (array, o) ∈ Γ) :
    ∀ (i : Nat) (x : List Element), Simulates S known (elementFunctions x) Γ (elements array i x)
      (S.elements known o i x) Reading.nothing
  | i, [] => by
    rw [elements, Site.elements, elementFunctions]
    exact simulates_return
  | i, .item value :: rest => by
    rw [elements, Site.elements, elementFunctions]
    refine (simulates_expression S known Γ value).bind fun id v _ => ?_
    refine (simulates_literal (.smi i)).bind fun k y _ => ?_
    refine (simulates_storeProperty (by simp [ho]) (by simp [Reading.value])
      (by simp [Reading.value])).discard.bind fun _ _ _ => ?_
    exact simulates_elements S known _ array o (by simp [ho]) (i + 1) rest
  | i, .hole :: rest => by
    rw [elements, Site.elements, elementFunctions]
    exact simulates_elements S known Γ array o ho (i + 1) rest
  | i, .spread :: rest => by
    rw [elements]
    exact simulates_throw

theorem executes_body {V σ : Type} (S : Site V σ) (known : Names) :
    ∀ content : Body, Executes S known (Body.functions content) []
      (scopeAfterBody S.topLevel known content) false (body content)
      (Outcome.exit <$> S.body known content)
  | .expression value => by
    rw [body, Site.body, Body.functions, scopeAfterBody]
    exact (simulates_expression S known [] value).returns
  | .statements list => by
    rw [body, Site.body, Body.functions, scopeAfterBody]
    have h := (executes_hoist S known list).andThen (executes_statements S _ list)
    rw [andThen_goOn] at h
    simpa only [map_bind] using h

theorem executes_hoist {V σ : Type} (S : Site V σ) (known : Names) :
    ∀ list : List Stmt, Executes S known (hoistedFunctions list) []
      (some (declare S.topLevel (hoisted list) known)) false (hoist list)
      (goOn (S.hoist list))
  | [] => by
    rw [hoist, Site.hoist, hoistedFunctions, hoisted]
    refine simulates_return.goOn.congr fun name => ?_
    cases S.topLevel <;> simp [declare]
  | .function (.mk name ps content) :: rest => by
    rw [hoistedFunctions, Function.functions]
    refine executes_hoist_function ?_ fun known => executes_hoist S known rest
    exact simulates_closure fun S ht => executes_call ht (executes_body S _ content)
  | .expression _ :: rest => executes_hoist_other (by simp) (executes_hoist S known rest)
  | .declare _ :: rest => executes_hoist_other (by simp) (executes_hoist S known rest)
  | .ret _ :: rest => executes_hoist_other (by simp) (executes_hoist S known rest)
  | .block _ :: rest => executes_hoist_other (by simp) (executes_hoist S known rest)
  | .branch _ _ _ :: rest => executes_hoist_other (by simp) (executes_hoist S known rest)
  | .empty :: rest => executes_hoist_other (by simp) (executes_hoist S known rest)
  | .debugger :: rest => executes_hoist_other (by simp) (executes_hoist S known rest)
  | .loop :: rest => executes_hoist_other (by simp) (executes_hoist S known rest)
  | .unsupported :: rest => executes_hoist_other (by simp) (executes_hoist S known rest)

theorem executes_statements {V σ : Type} (S : Site V σ) (known : Names) :
    ∀ list : List Stmt, Executes S known (statementFunctions list) []
      (scopeAfterAll S.topLevel known list) false (statements list)
      (Outcome.exit <$> S.statements known list)
  | [] => by
    rw [statements, Site.statements, statementFunctions, scopeAfterAll]
    exact simulates_return.goOn
  | s :: rest => by
    have hfirst := executes_statement S known s
    have hsome := isSome_scopeAfter S.topLevel known s
    rw [statementFunctions, scopeAfterAll, ← hsome]
    cases hk : scopeAfter S.topLevel known s with
    | none =>
      rw [hk] at hfirst
      rw [exit_statements_none s rest hk]
      simp only [Option.isSome_none, Bool.false_eq_true, if_false, List.append_nil]
      exact (hfirst.stopped fun c hd => statements_of_done hd rest).of_eq fun c hr =>
        statements_of_running hr.running s rest
    | some k =>
      rw [hk] at hfirst
      rw [exit_statements s rest hk]
      simp only [Option.isSome_some, if_true]
      exact (hfirst.andThen (executes_statements S k rest)).of_eq fun c hr =>
        statements_of_running hr.running s rest

theorem executes_statement {V σ : Type} (S : Site V σ) (known : Names) :
    ∀ s : Stmt, Executes S known (Stmt.functions s) [] (scopeAfter S.topLevel known s) false
      (statement s) (Outcome.exit <$> S.statement known s)
  | .expression value => by
    rw [statement, Site.statement, Stmt.functions, scopeAfter, map_bind,
      ← List.append_nil (Expr.functions value)]
    refine (simulates_expression S known [] value).executes fun id v _ => ?_
    rw [exit_complete]
    exact executes_complete (by simp [Reading.value])
  | .declare items => by
    rw [statement, Site.statement, Stmt.functions, scopeAfter, goOn_exit]
    exact executes_declarators S known items
  | .ret (some value) => by
    rw [statement, Site.statement, Stmt.functions, optionFunctions, scopeAfter]
    exact (simulates_expression S known [] value).returns
  | .ret none => by
    rw [statement, Site.statement, Stmt.functions, optionFunctions, scopeAfter]
    exact (simulates_literal .undefined).returns
  | .block list => by
    rw [statement, Site.statement, Stmt.functions, scopeAfter]
    have h := (executes_hoist S known list).andThen (executes_statements S _ list)
    rw [andThen_goOn] at h
    simpa only [map_bind] using h
  | .branch test yes no => by
    rw [statement, Site.statement, Stmt.functions, scopeAfter, map_bind]
    refine (simulates_expression S known [] test).executes fun t x _ => ?_
    rw [exit_choice]
    exact executes_branch (by simp [Reading.value])
      ((executes_statement S known yes).weaken (List.nil_subset _))
      ((executes_alternative S known no).weaken (List.nil_subset _))
  | .debugger => by
    rw [statement, Site.statement, Stmt.functions, scopeAfter, goOn_exit]
    have htrap : Simulates S known [] [] (build (Builder.emit .trap)) (S.ask .trap)
        Reading.value :=
      simulates_ask (fun _ _ _ h => build_emit_eq_ok h) (by simp)
        fun _ s _ _ => by simp [perform, request?]
    exact htrap.discard.goOn
  | .function _ => by
    rw [statement, Site.statement, Stmt.functions, scopeAfter]
    exact simulates_return.goOn
  | .empty => by
    rw [statement, Site.statement, Stmt.functions, scopeAfter]
    exact simulates_return.goOn
  | .loop => by
    rw [statement]
    exact executes_throw
  | .unsupported => by
    rw [statement]
    exact executes_throw

theorem executes_alternative {V σ : Type} (S : Site V σ) (known : Names) :
    ∀ s : Option Stmt, Executes S known (alternativeFunctions s) []
      (scopeAfterElse S.topLevel known s) false (alternative s)
      (Outcome.exit <$> S.alternative known s)
  | some s => by
    rw [alternative, Site.alternative, alternativeFunctions, scopeAfterElse]
    exact executes_statement S known s
  | none => by
    rw [alternative, Site.alternative, alternativeFunctions, scopeAfterElse]
    exact simulates_return.goOn

theorem executes_declarators {V σ : Type} (S : Site V σ) (known : Names) :
    ∀ items : List Declarator, Executes S known (declaratorFunctions items) []
      (some (declare S.topLevel (items.flatMap Declarator.names) known)) false
      (declarators items) (goOn (S.declarators known items))
  | [] => by
    rw [declarators, Site.declarators, declaratorFunctions, List.flatMap_nil]
    refine simulates_return.goOn.congr fun name => ?_
    cases S.topLevel <;> simp [declare]
  | .mk .pattern _ :: rest => by
    rw [declarators]
    exact executes_throw
  | .mk (.name text) (some value) :: rest => by
    rw [declarators, Site.declarators, declaratorFunctions, optionFunctions, List.flatMap_cons,
      goOn, bind_assoc]
    refine (simulates_expression S known [] value).executes fun id v _ => ?_
    exact Executes.declared (executes_bind (by simp [Reading.value]))
      ((executes_declarators S _ rest).weaken (List.nil_subset _))
  | .mk (.name text) none :: rest => by
    rw [declarators, Site.declarators, declaratorFunctions, optionFunctions, List.flatMap_cons,
      goOn, bind_assoc]
    refine (simulates_literal .undefined).executes fun id v _ => ?_
    exact Executes.declared (executes_bind (by simp [Reading.value]))
      ((executes_declarators S _ rest).weaken (List.nil_subset _))

end

end ScriptEngine.Meaning
