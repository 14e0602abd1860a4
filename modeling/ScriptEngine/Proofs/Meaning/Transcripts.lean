import Mathlib.Data.List.Forall2
import ScriptEngine.Proofs.Meaning.Implemented

/-!
Transcripts. What a graph means is said with an answerer that always has an answer, and a world may fail, and
may do the same request differently at different places of the graph. The two meet in a transcript: whatever a
graph does in a world is what it does for somebody who reads answers from a list and takes down what he was
asked, and the world carries out what he took down.
-/

namespace ScriptEngine.Meaning

open Graph Builder State

/-- Something that an execution did that only the world can answer. -/
inductive Deed (H : Type) where
  | asked (r : Request H) (answer : H)
  | tested (value : H) (holds : Bool)

/-- An answer that was written down before. -/
inductive Reply (H : Type) where
  | value (v : H)
  | truth (holds : Bool)

/-- Answers that are still to be given, and what was done so far. -/
structure Transcript (H : Type) where
  replies : List (Reply H)
  deeds : List (Deed H) := []

section

variable {H : Type}

def Transcript.nextValue (default : H) (t : Transcript H) : H :=
  match t.replies with
  | .value v :: _ => v
  | _ => default

def Transcript.nextTruth (t : Transcript H) : Bool :=
  match t.replies with
  | .truth holds :: _ => holds
  | _ => false

/-- Somebody who reads his answers from a list and takes down what he was asked. -/
def dictating (constant : Const → H) : Answerer H (Transcript H) where
  constant
  answer r t :=
    let v := t.nextValue (constant .undefined)
    (v, ⟨t.replies.tail, t.deeds ++ [.asked r v]⟩)
  truth v t := (t.nextTruth, ⟨t.replies.tail, t.deeds ++ [.tested v t.nextTruth]⟩)

/-- The same execution with other answers to come. -/
def Activity.replying (s : Activity H (Transcript H)) (replies : List (Reply H)) : Activity H (Transcript H) :=
  { s with world := { s.world with replies } }

end

/-! ### Carrying out a transcript -/

/-- Who carries out what was taken down. -/
structure Performer (H V ε σ : Type) where
  /-- What something stands for. -/
  denotes : H → V → Prop
  /-- What may be done for a request. -/
  does : Request H → EStateM ε σ V → Prop
  /-- What may be done to know the truth of a value. -/
  tests : H → EStateM ε σ Bool → Prop

section

variable {H V ε σ : Type} {P : Performer H V ε σ}

/-- `P.CarriesOut deeds s out`: the deeds are done in order from a state on, and each gives the answer that was
taken down, until one fails or all are done. -/
inductive Performer.CarriesOut (P : Performer H V ε σ) : List (Deed H) → σ → EStateM.Result ε σ Unit → Prop
  | done (s : σ) : P.CarriesOut [] s (.ok () s)
  | asked {r : Request H} {act : EStateM ε σ V} {v : H} {w : V} {s t : σ} {rest : List (Deed H)}
    {out : EStateM.Result ε σ Unit} : P.does r act → act s = .ok w t → P.denotes v w → P.CarriesOut rest t out →
    P.CarriesOut (.asked r v :: rest) s out
  | refused {r : Request H} {act : EStateM ε σ V} {v : H} {err : ε} {s t : σ} {rest : List (Deed H)} :
    P.does r act → act s = .error err t → P.CarriesOut (.asked r v :: rest) s (.error err t)
  | tested {v : H} {act : EStateM ε σ Bool} {holds : Bool} {s t : σ} {rest : List (Deed H)}
    {out : EStateM.Result ε σ Unit} : P.tests v act → act s = .ok holds t → P.CarriesOut rest t out →
    P.CarriesOut (.tested v holds :: rest) s out
  | failed {v : H} {act : EStateM ε σ Bool} {holds : Bool} {err : ε} {s t : σ} {rest : List (Deed H)} :
    P.tests v act → act s = .error err t → P.CarriesOut (.tested v holds :: rest) s (.error err t)

/-- A run ends as somebody says who has written a transcript and got an answer. -/
def Performer.Yields (P : Performer H V ε σ) (v : H) (t : Transcript H) (s : σ) : EStateM.Result ε σ V → Prop
  | .ok w s' => P.denotes v w ∧ P.CarriesOut t.deeds s (.ok () s')
  | .error err s' => P.CarriesOut t.deeds s (.error err s')

namespace Performer.CarriesOut

variable {deeds more : List (Deed H)} {s t : σ} {out : EStateM.Result ε σ Unit}

theorem append (h : P.CarriesOut deeds s (.ok () t)) (hmore : P.CarriesOut more t out) :
    P.CarriesOut (deeds ++ more) s out := by
  generalize hout : EStateM.Result.ok () t = first at h
  induction h with
  | done =>
    cases hout
    exact hmore
  | asked hdoes hact hv _ ih => exact .asked hdoes hact hv (ih hout)
  | refused => cases hout
  | tested htests hact _ ih => exact .tested htests hact (ih hout)
  | failed => cases hout

/-- What comes after a failure is not carried out. -/
theorem fails_early {err : ε} (h : P.CarriesOut deeds s (.error err t)) (more : List (Deed H)) :
    P.CarriesOut (deeds ++ more) s (.error err t) := by
  generalize hout : EStateM.Result.error err t = out at h
  induction h with
  | done => cases hout
  | asked hdoes hact hv _ ih => exact .asked hdoes hact hv (ih hout)
  | refused hdoes hact =>
    cases hout
    exact .refused hdoes hact
  | tested htests hact _ ih => exact .tested htests hact (ih hout)
  | failed htests hact =>
    cases hout
    exact .failed htests hact

end Performer.CarriesOut

end

/-! ### Worlds that carry out graphs -/

section

variable {H V ε σ : Type} (P : Performer H V ε σ) (constant : Const → H) (functions : Nat → Syntax.Function)

/-- The request of an instruction, where its operands and the arguments that it takes are as given. -/
def Performer.Poses (i : Instr) (vs : Nat → V) (args : List V) (r : Request H) : Prop :=
  ∃ s : Activity H (Transcript H), request? (dictating constant) functions s i.op i.inputs = some (r, i.taken) ∧
    (∀ (k : Nat) id, i.inputs[k]? = some (.value id) → P.denotes (s.regs id) (vs k)) ∧
    List.Forall₂ P.denotes (s.pushed.take i.taken) args

/-- A world that does what is done for requests, at each instruction of a graph. -/
structure Performer.Serves (W : World V ε σ) (g : Graph) (inputs : Inputs H) : Prop where
  answers : ∀ w, ∃ v, P.denotes v w
  literal : ∀ {b x c}, ⟨x, .prim .literal, [.const c], b⟩ ∈ g.code b → P.denotes (constant c) (W.const x 0 c)
  receiver : ∀ {b x}, ⟨x, .prim .receiver, [], b⟩ ∈ g.code b → ∃ w, P.denotes inputs.receiver w ∧
    ∀ vs, W.act ⟨x, .prim .receiver, [], b⟩ vs [] = pure w
  argument : ∀ {b x} {index : Nat}, ⟨x, .prim .arg, [raw index], b⟩ ∈ g.code b →
    ∃ w, P.denotes ((dictating constant).argument inputs index) w ∧
      ∀ vs, (∀ k, k ≠ 0 → vs k = W.const x k .undefined) → W.act ⟨x, .prim .arg, [raw index], b⟩ vs [] = pure w
  asks : ∀ {b i}, i ∈ g.code b → ∀ {vs args r}, P.Poses constant functions i vs args r → P.does r (W.act i vs args)
  tests : ∀ {b x v}, ⟨x, .script .branch, [.value v], b⟩ ∈ g.code b → ∀ {h : H} {vs}, P.denotes h (vs 0) →
    P.tests h (W.test ⟨x, .script .branch, [.value v], b⟩ vs)

/-- An execution for an answerer is where one in a world is. The instructions before are done, and some
parameters of the block wait to be received. -/
structure Depicts (g : Graph) (b : BlockId) (before : List Instr) (waiting : List InstrId)
    (s : Activity H (Transcript H)) (ρ : Progress V) : Prop where
  regs : ∀ id, g.DefinedBefore b before id → P.denotes (s.regs id) (ρ.regs id)
  received : ∀ id ∈ waiting, ∀ v, s.received.lookup id = some v → P.denotes v (ρ.regs id)
  pushed : List.Forall₂ P.denotes s.pushed ρ.pushed
  condition : ρ.condition = s.condition
  passed : List.Forall₂ (fun p q => p.1 = q.1 ∧ P.denotes p.2 q.2) s.passed ρ.passed

/-- With some answers, steps of an execution lead where steps of a world lead, or else to the failure of those. -/
def Rehearses {α β : Type} (R : β → Activity H (Transcript H) → α → Prop)
    (y : Activity H (Transcript H) → Option (β × Activity H (Transcript H))) (s : Activity H (Transcript H))
    (x : EStateM ε σ α) : Prop :=
  ∀ e, match x e with
  | .ok a e' => ∃ replies deeds b s', (∀ more, y (s.replying (replies ++ more)) = some (b, s'.replying more)) ∧
      s'.world.deeds = s.world.deeds ++ deeds ∧ P.CarriesOut deeds e (.ok () e') ∧ R b s' a
  | .error err e' => ∃ replies, ∀ b s', y (s.replying replies) = some (b, s') →
      ∃ deeds, s'.world.deeds = s.world.deeds ++ deeds ∧ P.CarriesOut deeds e (.error err e')

end

/-! ### One instruction -/

section

variable {H V ε σ : Type} {P : Performer H V ε σ} {constant : Const → H} {functions : Nat → Syntax.Function}
  {W : World V ε σ} {g : Graph} {inputs : Inputs H} {b : BlockId} {before : List Instr} {waiting : List InstrId}
  {s s' : Activity H (Transcript H)} {ρ ρ' : Progress V} {i : Instr}

theorem request?_replying (replies : List (Reply H)) (op : Op) (ins : List Input) :
    request? (dictating constant) functions (s.replying replies) op ins =
      request? (dictating constant) functions s op ins := rfl

/-- The arguments that a request takes are those of its instruction. -/
theorem taken_of_request {r : Request H} {n : Nat}
    (h : request? (dictating constant) functions s i.op i.inputs = some (r, n)) : i.taken = n := by
  obtain ⟨x, op, ins, b⟩ := i
  simp only at h
  unfold request? at h
  split at h
  case h_15 => cases h
  all_goals first
    | (cases h; rfl)
    | (split at h
       · cases h
         rfl
       · cases h)

/-- The result of an instruction is known after it. -/
theorem Depicts.define (h : Depicts P g b before waiting s ρ) {v : H} {w : V} (hv : P.denotes v w)
    (hwait : i.id ∉ waiting) : Depicts P g b (before ++ [i]) waiting (s.setReg i.id v) (ρ.setReg i.id w) := by
  refine ⟨fun id hid => ?_, fun id hid v' hv' => ?_, h.pushed, h.condition, h.passed⟩
  · simp only [Activity.setReg, Progress.setReg]
    split
    · exact hv
    · rename_i hne
      refine h.regs id ?_
      rcases hid with ⟨d, hd, hdef⟩ | hid
      · rcases List.mem_append.mp hd with hd | hd
        · exact .inl ⟨d, hd, hdef⟩
        · rw [List.mem_singleton.mp hd] at hdef
          exact absurd hdef.1.symm hne
      · exact .inr hid
  · simp only [Progress.setReg]
    rw [if_neg (by rintro rfl; exact hwait hid)]
    exact h.received id hid v' hv'

/-- An instruction without a result. -/
theorem definedBefore_effect (hl : g.Listed) (hcode : before ++ [i] <+: g.code b) (hout : i.op.info.output = false)
    {id : InstrId} (h : g.DefinedBefore b (before ++ [i]) id) : id ≠ i.id ∧ g.DefinedBefore b before id := by
  have hi : i ∈ g.code b := hcode.subset (by simp)
  have hsame : ∀ {b' d}, d ∈ g.code b' → d.Defines id → id ≠ i.id := by
    rintro b' d hd ⟨rfl, houtput⟩ heq
    obtain ⟨rfl, -⟩ := hl.eq_of_id hd hi heq
    rw [hout] at houtput
    cases houtput
  rcases h with ⟨d, hd, hdef⟩ | ⟨b', hne, hdom, d, hd, hdef⟩
  · refine ⟨hsame (hcode.subset hd) hdef, ?_⟩
    rcases List.mem_append.mp hd with hd | hd
    · exact .inl ⟨d, hd, hdef⟩
    · rw [List.mem_singleton.mp hd] at hdef
      rw [hdef.2] at hout
      cases hout
  · exact ⟨hsame hd hdef, .inr ⟨b', hne, hdom, d, hd, hdef⟩⟩

theorem Depicts.effect (h : Depicts P g b before waiting s ρ) (hl : g.Listed) (hcode : before ++ [i] <+: g.code b)
    (hout : i.op.info.output = false) : Depicts P g b (before ++ [i]) waiting s ρ :=
  ⟨fun id hid => h.regs id (definedBefore_effect hl hcode hout hid).2, h.received, h.pushed, h.condition, h.passed⟩

theorem Depicts.reads (h : Depicts P g b before waiting s ρ) (hdefined : ∀ id ∈ i.reads, g.DefinedBefore b before id)
    {k : Nat} {id : InstrId} (hk : i.inputs[k]? = some (.value id)) (hop : i.op ≠ .prim .toPhi) :
    P.denotes (s.regs id) (W.values ρ i k) := by
  have hread : id ∈ i.reads := by
    rw [Instr.reads, if_neg hop]
    exact List.mem_filterMap.mpr ⟨_, List.mem_of_getElem? hk, rfl⟩
  simp only [World.values, hk]
  exact h.regs id (hdefined id hread)

/-- An instruction that asks nothing. -/
theorem Rehearses.silent {α β : Type} {t : Activity H (Transcript H)} {R : β → Activity H (Transcript H) → α → Prop}
    {y : Activity H (Transcript H) → Option (β × Activity H (Transcript H))} {a : α} {v : β}
    (hy : ∀ more, y (s.replying more) = some (v, t.replying more)) (hdeeds : t.world.deeds = s.world.deeds)
    (hR : R v t a) : Rehearses P R y s (pure a : EStateM ε σ α) := fun e =>
  ⟨[], [], v, t, hy, by rw [hdeeds, List.append_nil], .done e, hR⟩

/-- The state after a request was answered. -/
def Activity.answered (s : Activity H (Transcript H)) (id : InstrId) (r : Request H) (v : H) (taken : Nat) :
    Activity H (Transcript H) :=
  { s.setReg id v with
    world := { s.world with deeds := s.world.deeds ++ [.asked r v] }
    pushed := s.pushed.drop taken }

/-- What a world answers is known after the instruction. -/
theorem Depicts.store (h : Depicts P g b before [] s ρ) (hl : g.Listed) (hcode : before ++ [i] <+: g.code b)
    {v : H} {w : V} (hv : P.denotes v w) :
    Depicts P g b (before ++ [i]) [] { s.setReg i.id v with pushed := s.pushed.drop i.taken } (W.store ρ i w) := by
  have hdefine := h.define (i := i) hv (by simp)
  refine ⟨fun id hid => ?_, by simp, List.forall₂_drop i.taken h.pushed, h.condition, h.passed⟩
  cases hout : i.op.info.output with
  | true =>
    simp only [World.store, hout, if_true]
    exact hdefine.regs id hid
  | false =>
    obtain ⟨hne, hbefore⟩ := definedBefore_effect hl hcode hout hid
    simp only [World.store, hout, Bool.false_eq_true, if_false, Activity.setReg, if_neg hne]
    exact h.regs id hbefore

/-- An instruction that makes a request. -/
theorem Depicts.asks (h : Depicts P g b before [] s ρ) (hs : P.Serves constant functions W g inputs) (hl : g.Listed)
    (hcode : before ++ [i] <+: g.code b) (hdefined : ∀ id ∈ i.reads, g.DefinedBefore b before id)
    (hpass : i.op ≠ .prim .toPhi)
    (hworld : W.perform ρ i = (do return W.store ρ i (← W.act i (W.values ρ i) (ρ.pushed.take i.taken))))
    (hperform : ∀ t : Activity H (Transcript H), perform (dictating constant) functions inputs t i.id i.op i.inputs =
      (request? (dictating constant) functions t i.op i.inputs).map fun (r, taken) =>
        ask (dictating constant) t i.id r taken)
    (total : (perform (dictating constant) functions inputs s i.id i.op i.inputs).isSome = true) :
    Rehearses P (fun _ s' ρ' => Depicts P g b (before ++ [i]) [] s' ρ')
      (fun s => (perform (dictating constant) functions inputs s i.id i.op i.inputs).map ((), ·)) s (W.perform ρ i) := by
  rw [hperform, Option.isSome_map] at total
  obtain ⟨⟨r, n⟩, hrequest⟩ := Option.isSome_iff_exists.mp total
  obtain rfl := taken_of_request hrequest
  have hdoes : P.does r (W.act i (W.values ρ i) (ρ.pushed.take i.taken)) :=
    hs.asks (hcode.subset (by simp))
      ⟨s, hrequest, fun k id hk => h.reads hdefined hk hpass, List.forall₂_take i.taken h.pushed⟩
  rw [hworld]
  intro e
  cases hact : W.act i (W.values ρ i) (ρ.pushed.take i.taken) e with
  | ok w e' =>
    obtain ⟨v, hv⟩ := hs.answers w
    rw [bind_of_ok hact]
    have hstored := h.store (W := W) hl hcode hv
    refine ⟨[.value v], [.asked r v], (), s.answered i.id r v i.taken, fun more => ?_, rfl,
      .asked hdoes hact hv (.done e'), hstored.regs, hstored.received, hstored.pushed, hstored.condition, hstored.passed⟩
    simp only [hperform, request?_replying, hrequest]
    rfl
  | error err e' =>
    rw [bind_of_error hact]
    refine ⟨[], fun _ s' hs' => ⟨[.asked r (constant .undefined)], ?_, .refused hdoes hact⟩⟩
    simp only [hperform, request?_replying, hrequest, Option.map_some, Option.some.injEq, Prod.mk.injEq, true_and] at hs'
    rw [← hs']
    rfl

/-- An instruction that is neither a parameter nor the end of its function. -/
theorem Depicts.perform (h : Depicts P g b before [] s ρ) (hs : P.Serves constant functions W g inputs) (hl : g.Listed)
    (hcode : before ++ [i] <+: g.code b) (hdefined : ∀ id ∈ i.reads, g.DefinedBefore b before id) (hshape : Shaped i)
    (hphi : i.op ≠ .prim .phi) (hret : i.op ≠ .prim .ret)
    (total : (perform (dictating constant) functions inputs s i.id i.op i.inputs).isSome = true) :
    Rehearses P (fun _ s' ρ' => Depicts P g b (before ++ [i]) [] s' ρ')
      (fun s => (Meaning.perform (dictating constant) functions inputs s i.id i.op i.inputs).map ((), ·)) s
      (W.perform ρ i) := by
  have hi : i ∈ g.code b := hcode.subset (by simp)
  have hasks := h.asks hs hl hcode hdefined
  have heffect := h.effect hl hcode
  obtain ⟨x, op, ins, b'⟩ := i
  obtain rfl : b' = b := hl.block_of_mem hi
  cases hshape with
  | phi hi => exact absurd hi.1 hphi
  | push hi =>
    obtain ⟨hop, v, hins⟩ := hi
    cases hop
    cases hins
    have hv := h.reads (W := W) hdefined (k := 0) rfl (by simp)
    refine .silent (t := { s with pushed := s.regs v :: s.pushed }) (v := ()) (fun _ => rfl) rfl ?_
    have hsame := heffect rfl
    exact ⟨hsame.regs, hsame.received, .cons hv h.pushed, h.condition, h.passed⟩
  | simple hsimple =>
    cases hsimple with
    | @literal c hc =>
      exact .silent (t := s.setReg x (constant c)) (v := ()) (fun _ => rfl) rfl
        (h.define (i := ⟨x, .prim .literal, [.const c], b'⟩) (hs.literal hi) (by simp))
    | code => cases total
    | global => cases total
    | receiver =>
      obtain ⟨w, hw, hact⟩ := hs.receiver hi
      have hworld : W.perform ρ ⟨x, .prim .receiver, [], b'⟩ = pure (W.store ρ ⟨x, .prim .receiver, [], b'⟩ w) := by
        change (do return W.store ρ _ (← W.act _ _ []) : EStateM ε σ _) = _
        rw [hact, pure_bind]
      rw [hworld]
      exact .silent (t := s.setReg x inputs.receiver) (v := ()) (fun _ => rfl) rfl (h.store hl hcode hw)
    | arg index =>
      obtain ⟨w, hw, hact⟩ := hs.argument hi
      have hworld : W.perform ρ ⟨x, .prim .arg, [raw index], b'⟩ =
          pure (W.store ρ ⟨x, .prim .arg, [raw index], b'⟩ w) := by
        change (do return W.store ρ _ (← W.act _ _ []) : EStateM ε σ _) = _
        rw [hact _ fun k hk => ?_, pure_bind]
        obtain ⟨k, rfl⟩ := Nat.exists_eq_succ_of_ne_zero hk
        rfl
      rw [hworld]
      exact .silent (t := s.setReg x ((dictating constant).argument inputs index)) (v := ()) (fun _ => rfl) rfl
        (h.store hl hcode hw)
    | trap => exact hasks (by simp) rfl (fun _ => rfl) total
    | _ => exact hasks (by simp) rfl (fun _ => rfl) total
  | takes ht =>
    cases ht with
    | call => exact hasks (by simp) rfl (fun _ => rfl) total
    | construct => exact hasks (by simp) rfl (fun _ => rfl) total
    | stub => cases total
    | cache => cases total
  | pass hi =>
    obtain ⟨hop, p, v, hins⟩ := hi
    cases hop
    cases hins
    have hread : v ∈ (⟨x, .prim .toPhi, [.value p, .value v], b'⟩ : Instr).reads := by simp [Instr.reads, Input.value?]
    refine .silent (t := { s with passed := (p, s.regs v) :: s.passed }) (v := ()) (fun _ => rfl) rfl ?_
    have hsame := heffect rfl
    exact ⟨hsame.regs, hsame.received, h.pushed, h.condition, .cons ⟨rfl, h.regs v (hdefined v hread)⟩ h.passed⟩
  | exit hop hins =>
    cases hins
    rcases hop with hop | hop | hop
    · exact absurd hop hret
    · cases hop
      rename_i v
      have htests := hs.tests hi (h.reads (W := W) hdefined (k := 0) rfl (by simp))
      have hsame := heffect rfl
      have hworld : W.perform ρ ⟨x, .script .branch, [.value v], b'⟩ = (do
          return { ρ with condition := some (← W.test ⟨x, .script .branch, [.value v], b'⟩
            (W.values ρ ⟨x, .script .branch, [.value v], b'⟩)) }) := rfl
      rw [hworld]
      intro e
      cases htest : W.test ⟨x, .script .branch, [.value v], b'⟩ (W.values ρ ⟨x, .script .branch, [.value v], b'⟩) e with
      | ok holds e' =>
        rw [bind_of_ok htest]
        exact ⟨[.truth holds], [.tested (s.regs v) holds], (), { s with
            condition := some holds
            world := { s.world with deeds := s.world.deeds ++ [.tested (s.regs v) holds] } }, fun _ => rfl, rfl,
          .tested htests htest (.done e'), hsame.regs, hsame.received, h.pushed, rfl, h.passed⟩
      | error err e' =>
        rw [bind_of_error htest]
        refine ⟨[], fun _ s' hs' => ⟨[.tested (s.regs v) false], ?_, .failed htests htest⟩⟩
        cases hs'
        rfl
    · cases hop
      cases total

/-! ### Blocks -/

theorem deeds_perform {op : Op} {id : InstrId} {ins : List Input}
    (h : Meaning.perform (dictating constant) functions inputs s id op ins = some s') :
    s.world.deeds <+: s'.world.deeds := by
  unfold Meaning.perform at h
  split at h
  case h_4 =>
    obtain ⟨v, -, rfl⟩ := Option.map_eq_some_iff.mp h
    exact List.prefix_rfl
  case h_7 =>
    cases h
    exact List.prefix_append _ _
  case h_8 =>
    obtain ⟨⟨r, n⟩, -, rfl⟩ := Option.map_eq_some_iff.mp h
    exact List.prefix_append _ _
  all_goals
    cases h
    exact List.prefix_rfl

theorem deeds_runBody {ids : List InstrId} {ending : Ending H}
    (h : runBody (dictating constant) functions g inputs ids s = some (ending, s')) :
    s.world.deeds <+: s'.world.deeds := by
  induction ids generalizing s with
  | nil =>
    cases h
    exact List.prefix_rfl
  | cons id rest ih =>
    rw [runBody, Option.bind_eq_bind, Option.bind_eq_some_iff] at h
    obtain ⟨i, -, h⟩ := h
    split at h
    · cases h
      exact List.prefix_rfl
    · obtain ⟨t, ht, h⟩ := Option.bind_eq_some_iff.mp h
      exact (deeds_perform ht).trans (ih h)

/-- Only the state at the start matters. -/
theorem Rehearses.congr {α β : Type} {R : β → Activity H (Transcript H) → α → Prop}
    {y z : Activity H (Transcript H) → Option (β × Activity H (Transcript H))} {x : EStateM ε σ α}
    (h : Rehearses P R z s' x) (hy : ∀ more, y (s.replying more) = z (s'.replying more))
    (hdeeds : s'.world.deeds = s.world.deeds) : Rehearses P R y s x := by
  intro e
  have hz := h e
  simp only [← hy, hdeeds] at hz
  exact hz

/-- Steps after each other. -/
theorem Rehearses.bind {α β α' β' : Type} {R : β → Activity H (Transcript H) → α → Prop}
    {R' : β' → Activity H (Transcript H) → α' → Prop}
    {y : Activity H (Transcript H) → Option (β × Activity H (Transcript H))}
    {z : β → Activity H (Transcript H) → Option (β' × Activity H (Transcript H))} {x : EStateM ε σ α}
    {f : α → EStateM ε σ α'} (hx : Rehearses P R y s x)
    (hz : ∀ v t a, R v t a → (∀ more, (z v (t.replying more)).isSome = true) → Rehearses P R' (z v) t (f a))
    (total : ∀ more, ((y (s.replying more)).bind fun p => z p.1 p.2).isSome = true)
    (grows : ∀ {v t c t'}, z v t = some (c, t') → t.world.deeds <+: t'.world.deeds) :
    Rehearses P R' (fun s => (y s).bind fun p => z p.1 p.2) s (x >>= f) := by
  intro e
  have hfirst := hx e
  cases hrun : x e with
  | error err e' =>
    rw [hrun] at hfirst
    rw [bind_of_error hrun]
    obtain ⟨replies, hfails⟩ := hfirst
    refine ⟨replies, fun c t' ht' => ?_⟩
    obtain ⟨⟨v, t⟩, hy, hz'⟩ := Option.bind_eq_some_iff.mp ht'
    obtain ⟨deeds, hdeeds, hcarries⟩ := hfails v t hy
    obtain ⟨later, hlater⟩ := grows hz'
    exact ⟨deeds ++ later, by rw [← hlater, hdeeds, List.append_assoc], hcarries.fails_early later⟩
  | ok a e' =>
    rw [hrun] at hfirst
    rw [bind_of_ok hrun]
    obtain ⟨replies, deeds, v, t, hy, hdeeds, hcarries, hR⟩ := hfirst
    have htotal : ∀ more, (z v (t.replying more)).isSome = true := fun more => by
      simpa only [hy, Option.bind_some] using total (replies ++ more)
    have hsecond := hz v t a hR htotal e'
    cases hnext : f a e' with
    | error err e'' =>
      rw [hnext] at hsecond
      obtain ⟨replies', hfails⟩ := hsecond
      refine ⟨replies ++ replies', fun c t' ht' => ?_⟩
      simp only [hy, Option.bind_some] at ht'
      obtain ⟨deeds', hdeeds', hcarries'⟩ := hfails c t' ht'
      exact ⟨deeds ++ deeds', by rw [hdeeds', hdeeds, List.append_assoc], hcarries.append hcarries'⟩
    | ok a' e'' =>
      rw [hnext] at hsecond
      obtain ⟨replies', deeds', c, t', hz', hdeeds', hcarries', hR'⟩ := hsecond
      refine ⟨replies ++ replies', deeds ++ deeds', c, t', fun more => ?_, ?_, hcarries.append hcarries', hR'⟩
      · simp only [List.append_assoc, hy, Option.bind_some, hz']
      · rw [hdeeds', hdeeds, List.append_assoc]

/-- A parameter receives what was passed. -/
theorem Depicts.receive {x : InstrId} (h : Depicts P g b before (x :: waiting) s ρ) {v : H}
    (hv : s.received.lookup x = some v) (hi : i.id = x) : Depicts P g b (before ++ [i]) waiting (s.setReg x v) ρ := by
  refine ⟨fun id hid => ?_, fun id hid => h.received id (by simp [hid]), h.pushed, h.condition, h.passed⟩
  simp only [Activity.setReg]
  split
  · rename_i heq
    rw [heq]
    exact h.received x (by simp) v hv
  · rename_i hne
    refine h.regs id ?_
    rcases hid with ⟨d, hd, hdef⟩ | hid
    · rcases List.mem_append.mp hd with hd | hd
      · exact .inl ⟨d, hd, hdef⟩
      · rw [List.mem_singleton.mp hd] at hdef
        exact absurd (hdef.1.symm.trans hi) hne
    · exact .inr hid

/-- Executions of a block end alike. -/
def EndsWith (P : Performer H V ε σ) (g : Graph) (b : BlockId) :
    Ending H → Activity H (Transcript H) → Departure V → Prop
  | .fell, s, .fell ρ => Depicts P g b (g.code b) [] s ρ
  | .returned v, _, .returned w => P.denotes v w
  | _, _, _ => False

theorem Depicts.runCode (hs : P.Serves constant functions W g inputs) (hg : g.StrictSSA)
    (hshape : ∀ i ∈ g.code b, Shaped i) {code : List Instr} (hcode : g.code b = before ++ code)
    (h : Depicts P g b before ((code.filter (·.op == .prim .phi)).map (·.id)) s ρ)
    (total : ∀ more, (runBody (dictating constant) functions g inputs (code.map (·.id)) (s.replying more)).isSome = true) :
    Rehearses P (EndsWith P g b) (runBody (dictating constant) functions g inputs (code.map (·.id))) s
      (W.runCode code ρ) := by
  induction code generalizing before s ρ with
  | nil =>
    refine .silent (t := s) (v := .fell) (fun _ => rfl) rfl ?_
    rw [List.append_nil] at hcode
    rw [← hcode] at h
    exact h
  | cons i rest ih =>
    have hi : i ∈ g.code b := by simp [hcode]
    have hget := (hg.listed.mem_code_iff.mp hi).2
    have hprefix : before ++ [i] <+: g.code b := ⟨rest, by simp [hcode]⟩
    have hsplit : g.code b = (before ++ [i]) ++ rest := by simp [hcode]
    by_cases hret : i.op = .prim .ret
    · obtain ⟨v, hins⟩ := (hshape i hi).inputs_of_ret hret
      have hworld : W.runCode (i :: rest) ρ = pure (.returned (W.values ρ i 0)) := by
        unfold World.runCode
        rw [hret]
      rw [hworld]
      refine .silent (t := s) (v := .returned (s.regs v)) (fun more => ?_) rfl
        (h.reads (hg.defined b before i hprefix) (by simp [hins]) (by simp [hret]))
      rw [List.map_cons, runBody, hget]
      simp only [Option.bind_eq_bind, Option.bind_some, hret, hins]
      rfl
    have hstep : Rehearses P
        (fun _ s' ρ' => Depicts P g b (before ++ [i]) ((rest.filter (·.op == .prim .phi)).map (·.id)) s' ρ')
        (fun s => (Meaning.perform (dictating constant) functions inputs s i.id i.op i.inputs).map ((), ·)) s
        (W.perform ρ i) := by
      have hfirst := total s.world.replies
      rw [List.map_cons, runBody_cons _ _ _ _ _ _ _ hget hret] at hfirst
      have hperform := Option.isSome_of_isSome_bind hfirst
      by_cases hphi : i.op = .prim .phi
      · have hins : i.inputs = [] := (hshape i hi).inputs_of_phi hphi
        rw [List.filter_cons_of_pos (by simp [hphi])] at h
        rw [hphi, hins, show Meaning.perform (dictating constant) functions inputs (s.replying s.world.replies) i.id
          (.prim .phi) [] = (s.received.lookup i.id).map (s.setReg i.id) from rfl, Option.isSome_map] at hperform
        obtain ⟨v, hv⟩ := Option.isSome_iff_exists.mp hperform
        have hworld : W.perform ρ i = pure ρ := by
          unfold World.perform
          rw [hphi]
        rw [hworld]
        refine .silent (t := s.setReg i.id v) (v := ()) (fun more => ?_) rfl (h.receive hv rfl)
        rw [hphi, hins]
        change ((s.received.lookup i.id).map _).map _ = _
        rw [hv]
        rfl
      · -- After an instruction that is no parameter, none is waiting.
        have hnone : ∀ j ∈ i :: rest, j.op ≠ .prim .phi := by
          have hheads := hg.heads b
          rw [hcode] at hheads
          intro j hj hop
          rcases List.mem_cons.mp hj with rfl | hj
          · exact hphi hop
          · exact hphi ((List.pairwise_cons.mp (List.pairwise_append.mp hheads).2.1).1 j hj hop)
        have hfilter : ∀ {l : List Instr}, (∀ j ∈ l, j ∈ i :: rest) →
            (l.filter (·.op == .prim .phi)).map (·.id) = [] := fun hl => by
          rw [List.map_eq_nil_iff, List.filter_eq_nil_iff]
          exact fun j hj => by simpa using hnone j (hl j hj)
        rw [hfilter fun _ hj => hj] at h
        rw [hfilter fun _ hj => List.mem_cons_of_mem _ hj]
        exact h.perform hs hg.listed hprefix (hg.defined b before i hprefix) (hshape i hi) hphi hret hperform
    have hcons : runBody (dictating constant) functions g inputs ((i :: rest).map (·.id)) = fun s =>
        ((Meaning.perform (dictating constant) functions inputs s i.id i.op i.inputs).map ((), ·)).bind fun p =>
          runBody (dictating constant) functions g inputs (rest.map (·.id)) p.2 := by
      funext s
      rw [List.map_cons, runBody_cons _ _ _ _ _ _ _ hget hret, Option.bind_map]
      rfl
    rw [hcons] at total ⊢
    rw [World.runCode_cons rest hret (hshape i hi).no_cache_exit.1 (hshape i hi).no_cache_exit.2]
    exact hstep.bind (fun _ t ρ' hR htotal => ih hsplit hR htotal) total deeds_runBody

/-! ### Graphs -/

/-- What is left of an execution that has returned. -/
def Transcript.closed (constant : Const → H) (t : Transcript H) : Activity H (Transcript H) :=
  { regs := fun _ => constant .undefined, world := t }

/-- What an execution does after the code of a block. -/
def afterBlock (constant : Const → H) (functions : Nat → Syntax.Function) (g : Graph) (inputs : Inputs H)
    (b : BlockId) (jumps : Nat) : Ending H → Activity H (Transcript H) → Option (H × Activity H (Transcript H))
  | .returned v, s => some (v, s.world.closed constant)
  | .fell, s => (next? (g.successors b) s.condition).bind fun target =>
    match jumps with
    | 0 => none
    | jumps + 1 => (runAt (dictating constant) functions g inputs jumps target 0 s.enter).map fun p =>
      (p.1, p.2.closed constant)

theorem runAt_eq_bind {jumps : Nat} (hb : b.index < g.blocks.size) :
    ((runAt (dictating constant) functions g inputs jumps b 0 s).map fun p => (p.1, p.2.closed constant)) =
      (runBody (dictating constant) functions g inputs (g.listing b) s).bind fun p =>
        afterBlock constant functions g inputs b jumps p.1 p.2 := by
  have hblock : g.blocks[b.index]? = some (g.blocks.getD b.index {}) := by
    rw [Array.getD_eq_getD_getElem?, Array.getElem?_eq_getElem hb]
    rfl
  rw [runAt, hblock]
  simp only [Option.bind_eq_bind, Option.bind_some, List.drop_zero, Option.map_bind]
  refine Option.bind_congr fun p _ => ?_
  obtain ⟨ending, t⟩ := p
  cases ending with
  | returned v => rfl
  | fell =>
    simp only [Function.comp, afterBlock, Option.map_bind]
    refine Option.bind_congr fun target _ => ?_
    cases jumps <;> rfl

theorem deeds_runAt {jumps : Nat} {v : H} {t : Transcript H}
    (h : runAt (dictating constant) functions g inputs jumps b 0 s = some (v, t)) : s.world.deeds <+: t.deeds := by
  induction jumps using Nat.strong_induction_on generalizing b s with
  | h jumps ih =>
    obtain ⟨ending, s', hbody, hend⟩ := runAt_cases h
    have hgrows := deeds_runBody hbody
    rcases hend with ⟨rfl, rfl⟩ | ⟨rfl, target, j, -, rfl, hlater⟩
    · exact hgrows
    · exact hgrows.trans (ih j (by omega) (s := s'.enter) hlater)

theorem deeds_afterBlock {jumps : Nat} {ending : Ending H} {v : H}
    (h : afterBlock constant functions g inputs b jumps ending s = some (v, s')) : s.world.deeds <+: s'.world.deeds := by
  cases ending with
  | returned v =>
    cases h
    exact List.prefix_rfl
  | fell =>
    obtain ⟨target, -, h⟩ := Option.bind_eq_some_iff.mp h
    cases jumps with
    | zero => cases h
    | succ jumps =>
      obtain ⟨⟨v, t⟩, hrun, heq⟩ := Option.map_eq_some_iff.mp h
      cases heq
      exact deeds_runAt (s := s.enter) hrun

theorem lookup_of_passed {l : List (InstrId × H)} {m : List (InstrId × V)} {id : InstrId} {v : H}
    (h : List.Forall₂ (fun p q => p.1 = q.1 ∧ P.denotes p.2 q.2) l m) (hv : l.lookup id = some v) :
    ∃ w, m.lookup id = some w ∧ P.denotes v w := by
  induction h with
  | nil => cases hv
  | @cons p q l m hpq _ ih =>
    obtain ⟨x, v'⟩ := p
    obtain ⟨_, w⟩ := q
    obtain ⟨rfl, hw⟩ := hpq
    rw [List.lookup_cons] at hv ⊢
    cases heq : id == x with
    | true =>
      rw [heq] at hv
      cases hv
      exact ⟨w, rfl, hw⟩
    | false =>
      rw [heq] at hv
      exact ih hv

theorem edge_of_next {l : List BlockId} {condition : Option Bool} {target : BlockId}
    (h : next? l condition = some target) : target ∈ l := by
  unfold next? at h
  split at h
  · cases h
    simp
  · cases h
    split <;> simp
  · cases h

/-- The next block begins where its predecessor has ended. -/
theorem Depicts.enter (hl : g.Listed) (h : Depicts P g b (g.code b) [] s ρ) {target : BlockId} (he : g.Edge b target) :
    Depicts P g target [] (g.parameters target) s.enter (W.enter g ρ target) := by
  refine ⟨fun id hid => ?_, fun id hid v hv => ?_, h.pushed, rfl, .nil⟩
  · obtain ⟨d, hd, -⟩ | ⟨b', hne, hdom, d, hd, hdef⟩ := hid
    · cases hd
    have hplain : id ∉ g.parameters target := by
      intro hparam
      obtain ⟨phi, hphi, rfl⟩ := List.mem_map.mp hparam
      exact hne (hl.eq_of_id hd (List.mem_filter.mp hphi).1 hdef.1).2
    simp only [World.enter, if_neg hplain]
    refine h.regs id ?_
    by_cases hsame : b' = b
    · subst hsame
      exact .inl ⟨d, hd, hdef⟩
    · exact .inr ⟨b', hsame, hdom.of_edge hne he, d, hd, hdef⟩
  · simp only [World.enter, if_pos hid]
    obtain ⟨w, hw, hvw⟩ := lookup_of_passed h.passed hv
    rw [hw]
    exact hvw

/-- What a graph does in a world from a block on is what some transcript says. -/
theorem Depicts.runAt (hs : P.Serves constant functions W g inputs) (hg : g.StrictSSA)
    (hshape : ∀ b, ∀ i ∈ g.code b, Shaped i) {jumps n : Nat} (hn : jumps < n)
    (h : Depicts P g b [] (g.parameters b) s ρ)
    (total : ∀ more, (Meaning.runAt (dictating constant) functions g inputs jumps b 0 (s.replying more)).isSome = true) :
    Rehearses P (fun v _ w => P.denotes v w) (fun s =>
      (Meaning.runAt (dictating constant) functions g inputs jumps b 0 s).map fun p => (p.1, p.2.closed constant)) s
      (W.runAt g n b ρ) := by
  induction jumps using Nat.strong_induction_on generalizing n b s ρ with
  | h jumps ih =>
    obtain ⟨n, rfl⟩ : ∃ m, n = m + 1 := ⟨n - 1, by omega⟩
    have hb : b.index < g.blocks.size := by
      have hfirst := total []
      rw [Meaning.runAt] at hfirst
      by_contra hge
      rw [Array.getElem?_eq_none (by omega)] at hfirst
      cases hfirst
    have htotal : ∀ more, ((runBody (dictating constant) functions g inputs ((g.code b).map (·.id))
        (s.replying more)).bind fun p => afterBlock constant functions g inputs b jumps p.1 p.2).isSome = true :=
      fun more => by rw [hg.listed.code_ids, ← runAt_eq_bind hb, Option.isSome_map, total]
    have hbody := h.runCode hs hg (hshape b) (by simp) fun more => Option.isSome_of_isSome_bind (htotal more)
    have hrun : (fun s => (Meaning.runAt (dictating constant) functions g inputs jumps b 0 s).map fun p =>
        (p.1, p.2.closed constant)) = fun s => (runBody (dictating constant) functions g inputs
          ((g.code b).map (·.id)) s).bind fun p => afterBlock constant functions g inputs b jumps p.1 p.2 := by
      funext s
      rw [runAt_eq_bind hb, hg.listed.code_ids]
    rw [hrun]
    unfold World.runAt
    refine hbody.bind (fun ending t d hends hmore => ?_) htotal deeds_afterBlock
    cases ending with
    | returned v =>
      cases d with
      | fell ρ' => exact hends.elim
      | returned w => exact .silent (t := t.world.closed constant) (v := v) (fun _ => rfl) rfl hends
    | fell =>
      cases d with
      | returned w => exact hends.elim
      | fell ρ' =>
        have hnext := Option.isSome_of_isSome_bind (hmore [])
        obtain ⟨target, hnext⟩ := Option.isSome_iff_exists.mp hnext
        change next? (g.successors b) t.condition = some target at hnext
        have hedge : g.Edge b target := edge_of_next hnext
        simp only [hends.condition, hnext]
        have hsteps : ∀ more, afterBlock constant functions g inputs b jumps .fell (t.replying more) =
            match jumps with
            | 0 => none
            | jumps + 1 => (Meaning.runAt (dictating constant) functions g inputs jumps target 0
                (t.enter.replying more)).map fun p => (p.1, p.2.closed constant) := fun more => by
          change (next? (g.successors b) t.condition).bind _ = _
          rw [hnext]
          rfl
        cases jumps with
        | zero =>
          have hnone := hmore []
          rw [hsteps] at hnone
          cases hnone
        | succ jumps =>
          refine (ih jumps (by omega) (n := n) (by omega) (hends.enter (W := W) hg.listed hedge) fun more => ?_).congr
            hsteps rfl
          have hsome := hmore more
          rwa [hsteps, Option.isSome_map] at hsome

end

end ScriptEngine.Meaning
