import ScriptEngine.Proofs.Graph.Safety
import ScriptEngine.Proofs.Lowering.Faithful
import ScriptEngine.Proofs.Lowering.Objects

/-!
What every pass before the last keeps: strict single assignment, the form of blocks, and the
functions that a graph refers to.
-/

namespace ScriptEngine.Lowering

open Graph

/-! ### Single instructions -/

/-- Every instruction of a piece reads known results, or those of the piece before it. -/
def Checks (known : List InstrId) : List Instr → Prop
  | [] => True
  | j :: rest => (∀ id ∈ j.reads, id ∈ known) ∧
    Checks (if j.op.info.output then j.id :: known else known) rest

theorem Checks.reads {known : List InstrId} {piece : List Instr} (h : Checks known piece)
    {before : List Instr} {j : Instr} (hj : before ++ [j] <+: piece) {id : InstrId}
    (hid : id ∈ j.reads) : (∃ d ∈ before, d.Defines id) ∨ id ∈ known := by
  induction piece generalizing known before with
  | nil => simp at hj
  | cons i rest ih =>
    cases before with
    | nil =>
      rw [List.nil_append, List.cons_prefix_cons] at hj
      exact .inr (h.1 id (hj.1 ▸ hid))
    | cons d before =>
      rw [List.cons_append, List.cons_prefix_cons] at hj
      obtain ⟨rfl, hj⟩ := hj
      rcases ih h.2 hj with ⟨d', hd', hdef⟩ | hknown
      · exact .inl ⟨d', by simp [hd'], hdef⟩
      · split at hknown
        · rename_i hout
          rcases List.mem_cons.mp hknown with rfl | hknown
          · exact .inl ⟨d, by simp, rfl, hout⟩
          · exact .inr hknown
        · exact .inr hknown

section

variable {g : Graph} {k : Nat} {i : Instr} {piece : List Instr}

/-- Primitive instructions stay as they are. -/
theorem Step.eq_of_prim (h : Step g k i piece) {op : PrimOp} (hop : i.op = .prim op) :
    piece = [i] := by
  cases h <;> first | rfl | cases hop

theorem Step.faithful (h : Step g k i piece) : Faithful [i] piece := by
  by_cases hkeep : piece = [i]
  · subst hkeep
    exact .self i
  have hreads : Checks i.reads piece := by
    cases h with
    | keep => exact absurd rfl hkeep
    | _ =>
      simp [Checks, Instr.reads, Input.value?, raw, Builder.raw, Op.info, PrimOp.info,
        OpInfo.value, OpInfo.effect, OpInfo.calling]
  refine ⟨by simp, ?_, ?_, ?_, fun before j hj id hid => ?_⟩
  · cases h with
    | keep => exact absurd rfl hkeep
    | _ => simp
  · cases h with
    | keep => exact absurd rfl hkeep
    | _ => rfl
  · cases h with
    | keep => exact absurd rfl hkeep
    | _ =>
      simp [Instr.Defines, Op.info, PrimOp.info, ScriptOp.info, OpInfo.value, OpInfo.effect,
        OpInfo.calling, OpInfo.condition]
  · exact (hreads.reads hj hid).imp_right fun h => ⟨[], i, by simp, h, by simp⟩

/-- A call with pushes in front of it. -/
theorem BlockBody.pushed (area : List Instr) {rest : List Instr} {i : Instr}
    (harea : ∀ j ∈ area, j.IsPush) (ht : Takes (pushCount area) i.op i.inputs)
    (hrest : BlockBody rest) : BlockBody (area ++ i :: rest) :=
  .call (fun j hj => .inl (harea j hj)) ht hrest

/-- A simple instruction becomes simple instructions and calls of stubs. -/
theorem Step.body (h : Step g k i piece) (hs : Simple i.op i.inputs) : BlockBody piece := by
  have hpush {b : BlockId} {id v : InstrId} : (pushInstr b id v).IsPush := ⟨rfl, v, rfl⟩
  cases h with
  | keep => exact .simple hs .nil
  | loadGlobal name =>
    exact .simple .global (.simple (.literal rfl) (.simple (.loadProperty _ _) .nil))
  | storeGlobal name =>
    exact .simple .global (.simple (.literal rfl) (.simple (.storeProperty _ _ _) .nil))
  | deleteGlobal name =>
    exact .simple .global (.simple (.literal rfl) (.simple (.deleteProperty _ _) .nil))
  | @closure x c p b index =>
    exact .simple (.code index) (BlockBody.pushed [pushInstr b p c] (by simp [hpush])
      (.stub (by decide)) .nil)
  | object => exact BlockBody.pushed [] (by simp) (.stub (by decide)) .nil
  | @array x n p b length =>
    exact .simple (.literal rfl) (BlockBody.pushed [pushInstr b p n] (by simp [hpush])
      (.stub (by decide)) .nil)
  | construct => cases hs
  | @element x array key v slot p₁ p₂ p₃ p₄ b index _ =>
    exact .simple (.literal rfl) (BlockBody.pushed [pushInstr b p₁ v, pushInstr b p₂ slot, pushInstr b p₃ key, pushInstr b p₄ array]
      (by simp [hpush]) (.stub (by decide)) .nil)
  | @loadProperty x o key u p₁ p₂ p₃ slot p₄ p₅ p₆ b kind _ =>
    refine .simple (.literal rfl) (BlockBody.pushed [pushInstr b p₁ u, pushInstr b p₂ key, pushInstr b p₃ o]
      (by simp [hpush]) (.cache kind) ?_)
    exact BlockBody.pushed [pushInstr b p₄ slot, pushInstr b p₅ key, pushInstr b p₆ o]
      (by simp [hpush]) (.stub (by decide)) .nil
  | @storeProperty x o key v u p₁ p₂ p₃ slot p₄ p₅ p₆ p₇ b kind _ =>
    refine .simple (.literal rfl) (BlockBody.pushed [pushInstr b p₁ u, pushInstr b p₂ key, pushInstr b p₃ o]
      (by simp [hpush]) (.cache kind) ?_)
    exact BlockBody.pushed [pushInstr b p₄ v, pushInstr b p₅ slot, pushInstr b p₆ key, pushInstr b p₇ o]
      (by simp [hpush]) (.stub (by decide)) .nil
  | @deleteProperty x o key p₁ p₂ b =>
    exact BlockBody.pushed [pushInstr b p₁ key, pushInstr b p₂ o] (by simp [hpush])
      (.stub (by decide)) .nil
  | @unary x v p b op =>
    exact BlockBody.pushed [pushInstr b p v] (by simp [hpush])
      (.stub (by cases op <;> decide)) .nil
  | @binary x l r p₁ p₂ b op =>
    exact BlockBody.pushed [pushInstr b p₁ r, pushInstr b p₂ l] (by simp [hpush])
      (.stub (by cases op <;> decide)) .nil
  | branch => cases hs

/-- A call stays one; it may take more arguments than before. -/
theorem Step.takes (h : Step g k i piece) {n : Nat} (ht : Takes n i.op i.inputs) :
    ∃ more last, piece = more ++ [last] ∧ (∀ j ∈ more, j.IsPush ∨ j.IsLiteral) ∧
      Takes (n + pushCount more) last.op last.inputs ∧
      (last.op = .prim .call → more = [] ∧ i.op = .prim .call) := by
  obtain ⟨x, op, ins, b⟩ := i
  cases ht with
  | construct f =>
    cases h with
    | keep => exact ⟨[], _, rfl, by simp, .construct f, by simp⟩
    | @construct _ _ len p₁ p₂ _ _ =>
      refine ⟨[literalInstr b len (.smi n), pushInstr b p₁ f, pushInstr b p₂ len], _, rfl, ?_,
        .stub (by decide), by simp⟩
      simp [Instr.IsPush, Instr.IsLiteral, Const.isValue]
  | call f r =>
    obtain rfl := h.eq_of_prim rfl
    exact ⟨[], _, rfl, by simp, .call f r, by simp⟩
  | stub hname =>
    obtain rfl := h.eq_of_prim rfl
    exact ⟨[], _, rfl, by simp, .stub hname, by simp⟩
  | cache kind =>
    obtain rfl := h.eq_of_prim rfl
    exact ⟨[], _, rfl, by simp, .cache kind, by simp⟩

/-- Operations of scripts that a pass leaves or adds are for later passes. -/
theorem Step.later (h : Step g k i piece) (hi : ∀ s, i.op = .script s → k ≤ stage s) :
    ∀ j ∈ piece, ∀ s, j.op = .script s → k < stage s := by
  cases h with
  | keep hstays =>
    intro j hj s hop
    obtain rfl := List.mem_singleton.mp hj
    exact lt_of_le_of_ne (hi s hop) (hstays s hop).symm
  | _ => simp [stage]

theorem Step.functions (h : Step g k i piece) {index : Nat} :
    ∀ j ∈ piece, Input.const (.function index) ∈ j.inputs →
      Input.const (.function index) ∈ i.inputs := by
  cases h with
  | keep =>
    intro j hj hin
    obtain rfl := List.mem_singleton.mp hj
    exact hin
  | _ => simp [raw, Builder.raw]

theorem Step.parameters (h : Step g k i piece) :
    piece.filter (·.op == .prim .phi) = [i].filter (·.op == .prim .phi) := by
  cases h <;> rfl

end

/-! ### Blocks -/

section

variable {g g' : Graph} {k n : Nat} {code code' : List Instr}

/-- Code without operations of scripts stays as it is. -/
theorem Expansion.eq_of_prim (h : Expansion (New n (Step g k)) code code')
    (hcode : ∀ i ∈ code, ∃ op, i.op = .prim op) : code' = code :=
  h.eq_of_forall fun i hi _ hr => (hcode i hi).elim fun _ hop => hr.1.eq_of_prim hop

theorem Expansion.body (h : Expansion (New n (Step g k)) code code') (hb : BlockBody code) :
    BlockBody code' := by
  induction hb generalizing code' with
  | nil =>
    cases h
    exact .nil
  | simple hs _ ih =>
    cases h with
    | cons hr hrest => exact (hr.1.body hs).append (ih hrest)
  | @call area rest i harea ht _ ih =>
    obtain ⟨area', rest', rfl, h₁, h₂⟩ := h.append_inv
    -- Whatever stands between the arguments stays.
    have hsame : area' = area := h₁.eq_of_prim fun j hj => by
      rcases harea j hj with hpush | ⟨hlit, -⟩
      · exact ⟨_, hpush.1⟩
      · exact ⟨_, hlit.1⟩
    subst hsame
    cases h₂ with
    | cons hr hrest =>
      obtain ⟨more, last, rfl, hmore, htakes, hcall⟩ := hr.1.takes ht
      have hcount : pushCount area' + pushCount more = pushCount (area' ++ more) :=
        List.countP_append.symm
      rw [hcount] at htakes
      rw [List.append_assoc, ← List.append_assoc area', List.singleton_append]
      refine .call (fun j hj => ?_) htakes (ih hrest)
      by_cases hop : last.op = .prim .call
      · obtain ⟨rfl, hi⟩ := hcall hop
        rw [List.append_nil] at hj
        exact (harea j hj).imp_right fun h => absurd hi h.2
      · rcases List.mem_append.mp hj with hj | hj
        · exact (harea j hj).imp_right fun h => ⟨h.1, hop⟩
        · exact (hmore j hj).imp_right fun h => ⟨h, hop⟩

theorem Expansion.ends {next : List BlockId} (h : Expansion (New n (Step g k)) code code')
    (hparams : ∀ b, g'.parameters b = g.parameters b) (he : g.Ends next code) :
    ∃ mid tail, code' = mid ++ tail ∧ BlockBody mid ∧ g'.Ends next tail := by
  cases he with
  | ret hop hins =>
    obtain rfl := h.eq_of_prim fun i hi => ⟨.ret, List.mem_singleton.mp hi ▸ hop⟩
    exact ⟨[], _, rfl, .nil, .ret hop hins⟩
  | jump hall hto =>
    obtain rfl := h.eq_of_prim fun i hi => by
      rcases hall i hi with hp | hlit
      · exact ⟨_, hp.1⟩
      · exact ⟨_, hlit.1⟩
    exact ⟨[], _, rfl, .nil, .jump hall (by rw [hparams, hto])⟩
  | @branch i v yes no hop hins hyes hno =>
    have hkeep : Graph.Ends g' [yes, no] [i] :=
      .branch hop hins (by rw [hparams, hyes]) (by rw [hparams, hno])
    cases h with
    | cons hr hnil =>
      cases hnil
      rw [List.append_nil]
      obtain ⟨hstep, -⟩ := hr
      obtain ⟨x, op, ins, b⟩ := i
      obtain rfl : ins = [.value v] := hins
      rcases hop with rfl | rfl
      · cases hstep with
        | keep => exact ⟨[], _, rfl, .nil, hkeep⟩
        | @branch _ _ p t _ =>
          refine ⟨[pushInstr b p v, stubInstr b t "coerce/boolean" 1], [_], rfl, ?_,
            .branch (.inr rfl) rfl (by rw [hparams, hyes]) (by rw [hparams, hno])⟩
          exact BlockBody.pushed [pushInstr b p v] (by simp [Instr.IsPush]) (.stub (by decide)) .nil
      · obtain rfl := hstep.eq_of_prim rfl
        exact ⟨[], _, rfl, .nil, hkeep⟩

theorem Changes.parameters (h : Rewrites (Step g k) g g') (b : BlockId) :
    g'.parameters b = g.parameters b := by
  have hfilter : ∀ xs ys, Expansion (New g.instrs.size (Step g k)) xs ys →
      ys.filter (·.op == .prim .phi) = xs.filter (·.op == .prim .phi) := by
    intro xs ys hexp
    induction hexp with
    | nil => rfl
    | cons hr _ ih =>
      rw [List.filter_append, hr.1.parameters, ih, ← List.filter_append, List.singleton_append]
  rw [Graph.parameters, Graph.parameters, hfilter _ _ (h.expansion b)]

theorem Changes.form (h : Rewrites (Step g k) g g') {b : BlockId} {heads body tail : List Instr}
    (hf : g.Form b heads body tail) : ∃ body' tail', g'.Form b heads body' tail' := by
  have hexp := h.expansion b
  rw [hf.code] at hexp
  obtain ⟨heads', rest', hcode, hheads, hrest⟩ := hexp.append_inv
  obtain ⟨body', tail', rfl, hbody, htail⟩ := hrest.append_inv
  obtain rfl := hheads.eq_of_prim fun i hi => ⟨_, (hf.heads i hi).1⟩
  obtain ⟨mid, tail'', rfl, hmid, hends⟩ := htail.ends h.parameters hf.ends
  refine ⟨body' ++ mid, tail'', ?_, hf.heads, (hbody.body hf.body).append hmid, ?_⟩
  · rw [hcode, List.append_assoc]
  · rw [h.successors]
    exact hends

theorem Changes.strictSSA (h : Rewrites (Step g k) g g') (hssa : g.StrictSSA) :
    g'.StrictSSA := by
  refine StrictSSA.of_faithful hssa h.listed h.blocks h.successors fun b => ?_
  have hpieces : ∀ xs ys, Expansion (New g.instrs.size (Step g k)) xs ys →
      Pieces Faithful xs ys := by
    intro xs ys hexp
    induction hexp with
    | nil => exact .nil
    | cons hr _ ih => exact .cons hr.1.faithful ih
  exact hpieces _ _ (h.expansion b)

theorem Changes.refers (h : Rewrites (Step g k) g g') {low high : Nat}
    (hr : g.Refers low high) : g'.Refers low high := by
  intro b j hj index hin
  obtain ⟨i, hi, piece, ⟨hstep, -⟩, hjp⟩ := (h.expansion b).mem hj
  exact hr b i hi index (hstep.functions j hjp hin)

end

/-! ### Graphs -/

/-- A graph that the first `k` passes are done with. -/
structure Staged (k : Nat) (g : Graph) : Prop where
  ssa : g.StrictSSA
  forms : ∀ b : BlockId, b.index < g.blocks.size → ∃ heads body tail, g.Form b heads body tail
  low : ∀ b, ∀ i ∈ g.code b, ∀ s, i.op = .script s → k < stage s

section

variable {g g' : Graph} {k : Nat}

theorem Staged.of_sketch (h : g.Sketch []) : Staged 0 g where
  ssa := h.strictSSA
  forms b hb := h.closed b hb (by simp)
  low b i hi s hop := by cases s <;> simp [stage]

theorem Staged.next (h : Staged k g) (hr : Rewrites (Step g (k + 1)) g g') :
    Staged (k + 1) g' where
  ssa := hr.strictSSA h.ssa
  forms b hb := by
    obtain ⟨heads, body, tail, hf⟩ := h.forms b (hb.trans_eq hr.blocks)
    exact ⟨heads, hr.form hf⟩
  low b j hj := by
    obtain ⟨i, hi, piece, ⟨hstep, -⟩, hjp⟩ := (hr.expansion b).mem hj
    exact hstep.later (fun s hop => h.low b i hi s hop) j hjp

theorem Staged.shaped (h : Staged k g) (b : BlockId) {i : Instr} (hi : i ∈ g.code b) : Shaped i := by
  obtain ⟨heads, body, tail, hf⟩ := h.forms b (lt_of_mem_code hi)
  exact hf.shaped hi

theorem Staged.reads_lt (h : Staged k g) (b : BlockId) {i : Instr} (hi : i ∈ g.code b)
    {id : InstrId} (hid : id ∈ i.reads) : id.index < g.instrs.size := by
  obtain ⟨before, after, hcode⟩ := List.append_of_mem hi
  have hpre : before ++ [i] <+: g.code b := ⟨after, by rw [hcode]; simp⟩
  have hlt : ∀ b', ∀ d ∈ g.code b', d.Defines id → id.index < g.instrs.size := by
    rintro b' d hd ⟨rfl, -⟩
    exact (Array.getElem?_eq_some_iff.mp (h.ssa.listed.mem_code_iff.mp hd).2).1
  rcases h.ssa.defined b before i hpre id hid with ⟨d, hd, hdef⟩ | ⟨b', -, -, d, hd, hdef⟩
  · exact hlt b d (by rw [hcode]; simp [hd]) hdef
  · exact hlt b' d hd hdef

/-- The passes before the last, in their order. -/
def early : List (BlockId → LowerM Unit) :=
  [lowerGlobals, lowerClosures, lowerObjects, lowerProperties, lowerOperators, lowerBranches]

/-- Every pass succeeds on a graph that the passes before it are done with. -/
theorem Staged.runs (h : Staged k g) {pass : BlockId → LowerM Unit} (hp : early[k]? = some pass) :
    Runs (g.blockIds.forM pass) g fun _ g' => Rewrites (Step g (k + 1)) g g' := by
  have hs : ∀ b, ∀ i ∈ g.code b, Shaped i := fun b _ => h.shaped b
  have hr : ∀ b, ∀ i ∈ g.code b, ∀ id ∈ i.reads, id.index < g.instrs.size :=
    fun b _ hi _ => h.reads_lt b hi
  have hl := h.ssa.listed
  match k, hp with
  | 0, rfl => exact runs_globals hl hs
  | 1, rfl => exact runs_closures hl hs
  | 2, rfl => exact runs_objects hl hs hr
  | 3, rfl => exact runs_properties hl hs hr
  | 4, rfl => exact runs_operators hl hs
  | 5, rfl => exact runs_branches hl hs

end

end ScriptEngine.Lowering
