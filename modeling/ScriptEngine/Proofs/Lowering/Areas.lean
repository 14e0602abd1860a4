import Mathlib
import ScriptEngine.Proofs.Lowering.Framing
import ScriptEngine.Proofs.Meaning.World

/-!
Prologues in any block, whatever the nesting of its calls. Read backwards, a block is a sequence of
calls that wait for pushes and pushes that each serve the call that waits most recently. The pass
succeeds if and only if the pushes and the calls balance, and then it has put the prologue of every
call right before its first push.
-/

namespace ScriptEngine

namespace Instr

/-- Calls of functions, stubs and inline caches. -/
def IsCall (i : Instr) : Prop := i.op = .prim .call ∨ i.op = .prim .callStub

instance (i : Instr) : Decidable i.IsCall := inferInstanceAs (Decidable (_ ∨ _))

/-- The place where a call says how many arguments it takes. -/
def countPlace (i : Instr) : Nat := if i.op = .prim .call then 2 else 1

/-- Change of the number of pushed arguments that no call has taken yet. -/
def balance (i : Instr) : Int :=
  if i.op = .prim .push then 1 else if i.IsCall then -i.taken else 0

variable {i : Instr}

theorem IsCall.op_ne_push (h : i.IsCall) : i.op ≠ .prim .push := by
  rcases h with h | h <;> simp [h]

theorem balance_push (h : i.op = .prim .push) : i.balance = 1 := if_pos h

theorem balance_call (h : i.IsCall) : i.balance = -i.taken := by
  rw [balance, if_neg h.op_ne_push, if_pos h]

theorem balance_idle (hpush : i.op ≠ .prim .push) (hcall : ¬ i.IsCall) : i.balance = 0 := by
  rw [balance, if_neg hpush, if_neg hcall]

theorem taken_of_rawInput {n : Nat} (h : i.IsCall) (hraw : i.rawInput i.countPlace = .ok n) :
    i.taken = n := by
  have hat : i.rawAt i.countPlace = n := rawAt_of_rawInput hraw
  rcases h with h | h
  all_goals
    simp only [countPlace, h] at hat
    simp only [taken, h]
    simpa using congrArg Int.toNat hat

end Instr

/-- Code in which no areas are open yet, and whose calls say how many arguments they take. -/
structure Unframed (code : List Instr) : Prop where
  closed : ∀ i ∈ code, i.op ≠ .prim .openArea
  counted : ∀ i ∈ code, i.IsCall → ∃ n : Nat, i.rawInput i.countPlace = .ok n

/-- Counting pushes and the arguments of calls in order, the count never goes below zero and ends
there. -/
def Settles (code : List Instr) : Prop :=
  (∀ before, before <+: code → 0 ≤ (before.map (·.balance)).sum) ∧ (code.map (·.balance)).sum = 0

instance (code : List Instr) : Decidable (Unframed code) :=
  have hcounted : (∀ i ∈ code, i.IsCall → ∃ n : Nat, i.rawInput i.countPlace = .ok n) ↔
      ∀ i ∈ code, i.IsCall → i.rawInput i.countPlace = .ok (i.taken : Int) :=
    forall₂_congr fun _ _ => forall_congr' fun hcall =>
      ⟨fun ⟨_, hn⟩ => Instr.taken_of_rawInput hcall hn ▸ hn, fun h => ⟨_, h⟩⟩
  decidable_of_iff ((∀ i ∈ code, i.op ≠ .prim .openArea) ∧
      ∀ i ∈ code, i.IsCall → i.rawInput i.countPlace = .ok (i.taken : Int))
    ⟨fun h => ⟨h.1, hcounted.mpr h.2⟩, fun h => ⟨h.closed, hcounted.mp h.counted⟩⟩

instance (code : List Instr) : Decidable (Settles code) :=
  decidable_of_iff ((∀ before ∈ code.inits, 0 ≤ (before.map (·.balance)).sum) ∧
      (code.map (·.balance)).sum = 0) (by simp only [List.mem_inits, Settles])

theorem settles_of_balance {code : List Instr} (h : ∀ i ∈ code, i.balance = 0) : Settles code := by
  have hsum : ∀ part : List Instr, part ⊆ code → (part.map (·.balance)).sum = 0 := by
    intro part hpart
    induction part with
    | nil => rfl
    | cons i part ih =>
      rw [List.map_cons, List.sum_cons, h i (hpart (by simp)), ih fun j hj => hpart (by simp [hj])]
      rfl
  exact ⟨fun before hbefore => (hsum before hbefore.subset).symm ▸ Int.le_refl 0, hsum code (List.Subset.refl _)⟩

/-- Read backwards, there are never more pushes than calls have asked for. -/
def Served (code : List Instr) : Prop := ∀ after, after <:+ code → (after.map (·.balance)).sum ≤ 0

theorem settles_iff {code : List Instr} :
    Settles code ↔ Served code ∧ (code.map (·.balance)).sum = 0 := by
  have hsplit : ∀ before after : List Instr, code = before ++ after →
      (code.map (·.balance)).sum = (before.map (·.balance)).sum + (after.map (·.balance)).sum := by
    rintro before after rfl
    rw [List.map_append, List.sum_append]
  constructor
  · rintro ⟨hbefore, htotal⟩
    refine ⟨fun after ⟨before, heq⟩ => ?_, htotal⟩
    have := hsplit before after heq.symm
    have := hbefore before ⟨after, heq⟩
    omega
  · rintro ⟨hafter, htotal⟩
    refine ⟨fun before ⟨after, heq⟩ => ?_, htotal⟩
    have := hsplit before after heq.symm
    have := hafter after ⟨before, heq⟩
    omega

theorem Served.tail {i : Instr} {code : List Instr} (h : Served (i :: code)) : Served code :=
  fun after hafter => h after (hafter.trans (List.suffix_cons i code))

theorem Served.total {code : List Instr} (h : Served code) : (code.map (·.balance)).sum ≤ 0 :=
  h code List.suffix_rfl

theorem Unframed.tail {i : Instr} {code : List Instr} (h : Unframed (i :: code)) : Unframed code :=
  ⟨fun j hj => h.closed j (by simp [hj]), fun j hj => h.counted j (by simp [hj])⟩

theorem Unframed.rawInput_eq {i : Instr} {code : List Instr} (h : Unframed code) (hi : i ∈ code) (hcall : i.IsCall) :
    i.rawInput i.countPlace = .ok (i.taken : Int) := by
  obtain ⟨count, hcount⟩ := h.counted i hi hcall
  rw [hcount, Instr.taken_of_rawInput hcall hcount]

namespace Lowering

open State Graph

/-! ### Single prologues -/

/-- Let a call take another callee. -/
def redirect (call checked : InstrId) (j : Instr) : Instr :=
  if j.op = .prim .call ∧ j.id = call then { j with inputs := .value checked :: j.inputs.drop 1 } else j

/-- `Opening n b i new f`: the prologue of a call, with numbers from `n` on, and what becomes of the
instructions after it. -/
inductive Opening (n : Nat) (b : BlockId) (i : Instr) : List Instr → (Instr → Instr) → Prop
  | stub {o : InstrId} : i.op = .prim .callStub → n ≤ o.index →
    Opening n b i [openInstr b o i.taken] id
  | call {o₁ p c o₂ : InstrId} {callee : Input} {others : List Input} : i.op = .prim .call →
    i.inputs = callee :: others → n ≤ c.index →
    Opening n b i [openInstr b o₁ 1, ⟨p, .prim .push, [callee], b⟩, stubInstr b c "checkFunction" 1,
      openInstr b o₂ i.taken] (redirect i.id c)

theorem Opening.op_ne {n : Nat} {b : BlockId} {i : Instr} {new : List Instr} {f : Instr → Instr}
    (h : Opening n b i new f) : ∀ j ∈ new, j.op ≠ .prim .call := by
  cases h <;> simp

/-- Only the call itself changes. -/
theorem Opening.fixes {n : Nat} {b : BlockId} {i : Instr} {new : List Instr} {f : Instr → Instr}
    (h : Opening n b i new f) {j : Instr} (hj : j.op ≠ .prim .call ∨ j.id ≠ i.id) : f j = j := by
  cases h with
  | stub => rfl
  | call => exact if_neg fun hboth => hj.elim (· hboth.1) (· hboth.2)

theorem Opening.mono {n n' : Nat} {b : BlockId} {i : Instr} {new : List Instr} {f : Instr → Instr}
    (h : Opening n b i new f) (hle : n' ≤ n) : Opening n' b i new f := by
  cases h with
  | stub hop ho => exact .stub hop (hle.trans ho)
  | call hop hins hc => exact .call hop hins (hle.trans hc)

section

variable {i j : Instr} {call checked : InstrId}

@[simp] theorem redirect_id : (redirect call checked j).id = j.id := by
  unfold redirect
  split <;> rfl

@[simp] theorem redirect_op : (redirect call checked j).op = j.op := by
  unfold redirect
  split <;> rfl

theorem redirect_of_op_ne (h : j.op ≠ .prim .call) : redirect call checked j = j :=
  if_neg fun hboth => h hboth.1

theorem redirect_of_id_ne (h : j.id ≠ call) : redirect call checked j = j :=
  if_neg fun hboth => h hboth.2

theorem redirect_inputs_succ (k : Nat) : (redirect call checked j).inputs[k + 1]? = j.inputs[k + 1]? := by
  unfold redirect
  split
  · rw [List.getElem?_cons_succ, List.getElem?_drop, Nat.add_comm]
  · rfl

@[simp] theorem redirect_taken : (redirect call checked j).taken = j.taken := by
  unfold redirect
  split
  · rename_i h
    simp [Instr.taken, h.1, Instr.rawAt]
  · rfl

end

@[simp] theorem redirect_isCall {j : Instr} {call checked : InstrId} :
    (redirect call checked j).IsCall ↔ j.IsCall := by
  unfold Instr.IsCall
  rw [redirect_op]

variable {g g₁ g' : Graph} {b : BlockId} {n : Nat} {pre post : List Instr} {i anchor : Instr}

theorem map_redirect_split {before after : List Instr} {i : Instr} {c : InstrId}
    (hop : i.op = .prim .call) (hnodup : ((before ++ i :: after).map (·.id)).Nodup) :
    (before ++ i :: after).map (redirect i.id c) =
      before ++ { i with inputs := .value c :: i.inputs.drop 1 } :: after := by
  have hothers : ∀ code : List Instr, (∀ j ∈ code, j.id ≠ i.id) → code.map (redirect i.id c) = code :=
    fun code h => (List.map_congr_left fun j hj => redirect_of_id_ne (h j hj)).trans (List.map_id _)
  rw [List.map_append, List.map_cons, List.nodup_append, List.nodup_cons] at hnodup
  rw [List.map_append, List.map_cons, hothers before, hothers after, redirect, if_pos ⟨hop, rfl⟩]
  · exact fun j hj heq => hnodup.2.1.1 (heq ▸ List.mem_map_of_mem hj)
  · exact fun j hj heq => hnodup.2.2 _ (List.mem_map_of_mem hj) _ (by simp) heq

/-- The prologue of a call in front of an instruction that is not after it. -/
theorem runs_prologue (hl : g.Listed) (hcode : g.code b = pre ++ anchor :: post) (hi : i ∈ anchor :: post)
    (hcall : i.IsCall) (hcount : ∃ n : Nat, i.rawInput i.countPlace = .ok n) :
    Runs (prologue i.id anchor.id) g fun _ g' => ∃ new f, Opening g.instrs.size b i new f ∧
      Edits g g' b (pre ++ (new ++ (anchor :: post).map f)) := by
  obtain ⟨count, hraw⟩ := hcount
  have htaken := Instr.taken_of_rawInput hcall hraw
  have hmem : i ∈ g.code b := by
    rw [hcode]
    exact List.mem_append_right _ hi
  refine Runs.instrOf hl hmem ?_
  rcases hcall with hop | hop
  · rw [hop]
    have hraw' : i.rawInput 2 = .ok (count : Int) := by simpa [Instr.countPlace, hop] using hraw
    obtain ⟨callee, others, hins⟩ : ∃ callee others, i.inputs = callee :: others := by
      cases hins : i.inputs with
      | nil => simp [Instr.rawInput, hins] at hraw'
      | cons callee others => exact ⟨callee, others, rfl⟩
    refine Runs.ask hraw' (Runs.ask (a := callee) (by simp [Instr.input, hins]) ?_)
    rw [Int.toNat_natCast]
    obtain ⟨o₁, g₁, hok₁, h₁⟩ := (Cursor.start hl hcode).insert .openArea [raw 1]
    refine Runs.bind (P := fun _ g' => g' = g₁) ⟨(), g₁, discard_eq_ok.mpr ⟨o₁, hok₁⟩, rfl⟩ ?_
    rintro _ _ rfl
    refine (h₁.push callee).bind ?_
    rintro _ g₂ ⟨p, h₂⟩
    refine (h₂.insert .callStub [.const (.stub "checkFunction"), raw 1]).bind fun c g₃ h₃ => ?_
    obtain ⟨o₂, g₄, hok₄, h₄⟩ := h₃.insert .openArea [raw count]
    refine Runs.bind (P := fun _ g' => g' = g₄) ⟨(), g₄, discard_eq_ok.mpr ⟨o₂, hok₄⟩, rfl⟩ ?_
    rintro _ _ rfl
    have hcode₄ := h₄.edits.code
    obtain ⟨before, after, hsplit⟩ := List.append_of_mem hi
    rw [hsplit] at hcode₄
    have hblock : i.block = b := hl.block_of_mem hmem
    have hnodup := h₄.edits.listed.code_nodup b
    simp only [← List.append_assoc] at hcode₄
    refine (replace_ok h₄.edits.listed hcode₄ _ _).mono fun _ g₅ he => ?_
    have hopening : Opening g.instrs.size b i [openInstr b o₁ 1, ⟨p, .prim .push, [callee], b⟩,
        stubInstr b c "checkFunction" 1, openInstr b o₂ i.taken] (redirect i.id c) :=
      .call hop hins (h₄.fresh (stubInstr b c "checkFunction" 1) (by simp)).2
    refine ⟨_, _, hopening, ?_⟩
    have hmap : (anchor :: post).map (redirect i.id c) =
        before ++ ⟨i.id, .prim .call, .value c :: i.inputs.drop 1, b⟩ :: after := by
      rw [hsplit, map_redirect_split hop]
      · simp [hop, hblock]
      · rw [hcode₄, List.append_assoc, List.map_append] at hnodup
        exact (List.nodup_append.mp hnodup).2.1
    have hedits := h₄.edits.trans he
    rw [hmap, htaken]
    simpa using hedits
  · rw [hop]
    have hraw' : i.rawInput 1 = .ok (count : Int) := by simpa [Instr.countPlace, hop] using hraw
    refine Runs.ask hraw' ?_
    rw [Int.toNat_natCast]
    obtain ⟨o, g', hok, hc⟩ := (Cursor.start hl hcode).insert .openArea [raw count]
    refine ⟨(), g', discard_eq_ok.mpr ⟨o, hok⟩, _, id,
      .stub hop (hc.fresh (openInstr b o count) (by simp)).2, ?_⟩
    rw [List.map_id, htaken]
    exact hc.edits

/-! ### The walk -/

/-- A call that waits for pushes: for so many before this place, and it has got so many after it. -/
structure Waiting where
  call : Instr
  before : Nat
  after : Nat

/-- How the walk keeps a call that waits. -/
def Waiting.pending (w : Waiting) : PendingCall := ⟨w.call.id, w.before⟩

/-- `Woven n b waiting code code'`: what the walk has made of the end of a block, and the calls that
wait, the innermost first. -/
inductive Woven (n : Nat) (b : BlockId) : List Waiting → List Instr → List Instr → Prop
  | nil : Woven n b [] [] []
  | idle {waiting : List Waiting} {i : Instr} {code code' : List Instr} : i.op ≠ .prim .push → ¬ i.IsCall →
    Woven n b waiting code code' → Woven n b waiting (i :: code) (i :: code')
  | call {waiting : List Waiting} {i : Instr} {code code' : List Instr} : i.IsCall → 0 < i.taken →
    Woven n b waiting code code' → Woven n b (⟨i, i.taken, 0⟩ :: waiting) (i :: code) (i :: code')
  | bare {waiting : List Waiting} {i : Instr} {code code' new : List Instr} {f : Instr → Instr} : i.IsCall →
    i.taken = 0 → Opening n b i new f → Woven n b waiting code code' →
    Woven n b waiting (i :: code) (new ++ (i :: code').map f)
  | push {waiting : List Waiting} {call i : Instr} {before after : Nat} {code code' : List Instr} :
    i.op = .prim .push → Woven n b (⟨call, before + 2, after⟩ :: waiting) code code' →
    Woven n b (⟨call, before + 1, after + 1⟩ :: waiting) (i :: code) (i :: code')
  | first {waiting : List Waiting} {call i : Instr} {after : Nat} {code code' new : List Instr}
    {f : Instr → Instr} : i.op = .prim .push → Opening n b call new f →
    Woven n b (⟨call, 1, after⟩ :: waiting) code code' →
    Woven n b waiting (i :: code) (new ++ (i :: code').map f)

namespace Woven

variable {waiting : List Waiting} {code code' : List Instr}

theorem mono {n' : Nat} (h : Woven n b waiting code code') (hle : n' ≤ n) : Woven n' b waiting code code' := by
  induction h with
  | nil => exact .nil
  | idle hpush hcall _ ih => exact .idle hpush hcall ih
  | call hcall htaken _ ih => exact .call hcall htaken ih
  | bare hcall htaken hopening _ ih => exact .bare hcall htaken (hopening.mono hle) ih
  | push hop _ ih => exact .push hop ih
  | first hop hopening _ ih => exact .first hop (hopening.mono hle) ih

/-- The calls that wait stand in the code, in the same order. -/
theorem sublist (h : Woven n b waiting code code') : (waiting.map (·.call)).Sublist code := by
  induction h with
  | nil => exact .slnil
  | idle _ _ _ ih | bare _ _ _ _ ih | push _ _ ih => exact ih.cons _
  | call _ _ _ ih => exact ih.cons_cons _
  | first _ _ _ ih => exact ((List.sublist_cons_self _ _).trans ih).cons _

theorem balance (h : Woven n b waiting code code') :
    (code.map (·.balance)).sum = -((waiting.map (·.before)).sum : Nat) := by
  induction h with
  | nil => rfl
  | idle hpush hcall _ ih => rw [List.map_cons, List.sum_cons, ih, Instr.balance_idle hpush hcall, Int.zero_add]
  | call hcall _ _ ih =>
    simp only [List.map_cons, List.sum_cons, ih, Instr.balance_call hcall]
    omega
  | bare hcall htaken _ _ ih =>
    simp only [List.map_cons, List.sum_cons, ih, Instr.balance_call hcall, htaken]
    omega
  | push hop _ ih | first hop _ _ ih =>
    rw [List.map_cons, List.sum_cons] at ih
    simp only [List.map_cons, List.sum_cons, ih, Instr.balance_push hop]
    omega

theorem waits (h : Woven n b waiting code code') :
    ∀ w ∈ waiting, w.call.IsCall ∧ 0 < w.before ∧ w.before + w.after = w.call.taken := by
  induction h with
  | nil => simp
  | idle _ _ _ ih | bare _ _ _ _ ih => exact ih
  | call hcall htaken _ ih => simpa using ⟨⟨hcall, htaken⟩, ih⟩
  | push _ _ ih =>
    rw [List.forall_mem_cons] at ih ⊢
    have htotal := ih.1.2.2
    simp only at htotal ⊢
    exact ⟨⟨ih.1.1, by omega, by omega⟩, ih.2⟩
  | first _ _ _ ih => exact (List.forall_mem_cons.mp ih).2

/-- A call that waits is as it was. -/
theorem mem (h : Woven n b waiting code code') (hnodup : (code.map (·.id)).Nodup) :
    ∀ w ∈ waiting, w.call ∈ code' := by
  have hkeep : ∀ {call : Instr} {new : List Instr} {f : Instr → Instr} {w : Waiting} {rest : List Instr},
      Opening n b call new f → w.call.id ≠ call.id → w.call ∈ rest → w.call ∈ new ++ rest.map f := by
    intro call new f w rest hopening hne hmem
    exact List.mem_append_right _ (List.mem_map.mpr ⟨w.call, hmem, hopening.fixes (.inr hne)⟩)
  have hids : ∀ {ws : List Waiting} {code code' : List Instr}, Woven n b ws code code' →
      (ws.map (·.call.id)).Sublist (code.map (·.id)) := fun h => by
    simpa [Function.comp_def] using h.sublist.map (·.id)
  induction h with
  | nil => simp
  | idle _ _ _ ih =>
    rw [List.map_cons, List.nodup_cons] at hnodup
    exact fun w hw => List.mem_cons_of_mem _ (ih hnodup.2 w hw)
  | call _ _ _ ih =>
    rw [List.map_cons, List.nodup_cons] at hnodup
    rw [List.forall_mem_cons]
    exact ⟨by simp, fun w hw => List.mem_cons_of_mem _ (ih hnodup.2 w hw)⟩
  | bare _ _ hopening hrest ih =>
    rw [List.map_cons, List.nodup_cons] at hnodup
    refine fun w hw => hkeep hopening (fun heq => hnodup.1 ?_) (List.mem_cons_of_mem _ (ih hnodup.2 w hw))
    exact heq ▸ (hids hrest).subset (List.mem_map.mpr ⟨w, hw, rfl⟩)
  | push _ _ ih =>
    rw [List.map_cons, List.nodup_cons] at hnodup
    have hall := ih hnodup.2
    rw [List.forall_mem_cons] at hall ⊢
    exact ⟨List.mem_cons_of_mem _ hall.1, fun w hw => List.mem_cons_of_mem _ (hall.2 w hw)⟩
  | first _ hopening hrest ih =>
    rw [List.map_cons, List.nodup_cons] at hnodup
    have hdistinct := hnodup.2.sublist (hids hrest)
    rw [List.map_cons, List.nodup_cons] at hdistinct
    refine fun w hw => hkeep hopening (fun heq => hdistinct.1 ?_)
      (List.mem_cons_of_mem _ (ih hnodup.2 w (by simp [hw])))
    exact heq ▸ List.mem_map.mpr ⟨w, hw, rfl⟩

end Woven

theorem expectPushes_call {pending : List PendingCall} (hcall : i.IsCall)
    (hcount : ∃ n : Nat, i.rawInput i.countPlace = .ok n) : expectPushes pending i =
      if i.taken = 0 then prologue i.id i.id >>= fun _ => pure pending
      else pure (⟨i.id, i.taken⟩ :: pending) := by
  obtain ⟨count, hraw⟩ := hcount
  have htaken := Instr.taken_of_rawInput hcall hraw
  have hgoal : i.rawInput i.countPlace = .ok (count : Int) → (do
      let argc ← ask (i.rawInput i.countPlace)
      if argc < 0 then throw (.internal i.op.name "negative argument count")
      else if argc = 0 then
        prologue i.id i.id
        return pending
      else return ⟨i.id, argc.toNat⟩ :: pending : LowerM (List PendingCall)) =
        if i.taken = 0 then prologue i.id i.id >>= fun _ => pure pending
        else pure (⟨i.id, i.taken⟩ :: pending) := by
    intro hraw
    have hpos : ¬ (count : Int) < 0 := by omega
    rw [hraw, htaken]
    by_cases hzero : count = 0
    · subst hzero
      rfl
    · have hne : ¬ (count : Int) = 0 := by omega
      simp only [ask, pure_bind, if_neg hpos, if_neg hne, if_neg hzero, Int.toNat_natCast]
  rw [← hgoal hraw]
  unfold expectPushes Instr.countPlace
  rcases hcall with hop | hop <;> simp [hop]

/-- What the walk makes of the end of a block. -/
theorem runs_walk (hu : Unframed post) (hserved : Served post) :
    ∀ {g : Graph} (pre : List Instr), g.Listed → g.code b = pre ++ post →
      Runs (backward (post.map (·.id)) []) g fun pending g' => ∃ waiting post',
        Woven g.instrs.size b waiting post post' ∧ pending = waiting.map (·.pending) ∧
          Edits g g' b (pre ++ post') := by
  induction post with
  | nil =>
    intro g pre hl hcode
    exact Runs.pure ⟨[], [], .nil, rfl, ⟨hl, hcode, fun _ _ => rfl, rfl, fun _ => rfl, le_rfl⟩⟩
  | cons i post ih =>
    intro g pre hl hcode
    rw [List.map_cons, backward_cons]
    refine (ih hu.tail hserved.tail (pre ++ [i]) hl (by simp [hcode])).bind ?_
    rintro _ g₁ ⟨waiting, post', hwoven, rfl, he⟩
    have hcode₁ : g₁.code b = pre ++ i :: post' := by simp [he.code]
    have hedits : Edits g g₁ b (pre ++ i :: post') := by simpa using he
    have hmem : i ∈ g₁.code b := by simp [hcode₁]
    refine Runs.instrOf he.listed hmem ?_
    by_cases hcall : i.IsCall
    · have hcount := hu.counted i (by simp) hcall
      rw [expectPushes_call hcall hcount]
      split
      · rename_i htaken
        refine (runs_prologue he.listed hcode₁ (by simp) hcall hcount).bind ?_
        rintro _ g₂ ⟨new, f, hopening, he₂⟩
        exact Runs.pure ⟨waiting, _, .bare hcall htaken (hopening.mono he.instrs) hwoven, rfl, hedits.trans he₂⟩
      · exact Runs.pure ⟨_, _, .call hcall (by omega) hwoven, rfl, hedits⟩
    · by_cases hpush : i.op = .prim .push
      · have hbalance := hwoven.balance
        have htotal := hserved.total
        rw [List.map_cons, List.sum_cons, hbalance, Instr.balance_push hpush] at htotal
        unfold expectPushes
        rw [hpush]
        cases hwaiting : waiting with
        | nil => simp [hwaiting] at htotal
        | cons w rest =>
          subst hwaiting
          obtain ⟨call, before, after⟩ := w
          obtain ⟨hwaits, hpos, -⟩ := hwoven.waits ⟨call, before, after⟩ (by simp)
          simp only [List.map_cons, Waiting.pending]
          split
          · obtain rfl : before = 1 := by simp only at hpos; omega
            have hold := hl.code_nodup b
            rw [hcode, List.map_append, List.map_cons] at hold
            have hcallmem : call ∈ post' :=
              hwoven.mem (List.nodup_cons.mp (List.nodup_append.mp hold).2.1).2 ⟨call, 1, after⟩ (by simp)
            have hcount := hu.counted call
              (List.mem_cons_of_mem _ (hwoven.sublist.subset (by simp))) hwaits
            refine (runs_prologue he.listed hcode₁ (List.mem_cons_of_mem _ hcallmem) hwaits hcount).bind ?_
            rintro _ g₂ ⟨new, f, hopening, he₂⟩
            exact Runs.pure ⟨rest, _, .first hpush (hopening.mono he.instrs) hwoven, rfl, hedits.trans he₂⟩
          · obtain ⟨before, rfl⟩ : ∃ k, before = k + 2 := ⟨before - 2, by omega⟩
            exact Runs.pure ⟨_, _, .push hpush hwoven, rfl, hedits⟩
      · have hidle : expectPushes (waiting.map (·.pending)) i = pure (waiting.map (·.pending)) := by
          cases hop : i.op with
          | script => simp [expectPushes, hop]
          | prim op =>
            refine idle_of_op hop ?_ ?_ ?_ _
            · rintro rfl
              exact hcall (.inl hop)
            · rintro rfl
              exact hcall (.inr hop)
            · rintro rfl
              exact hpush hop
        rw [hidle]
        exact Runs.pure ⟨_, _, .idle hpush hcall hwoven, rfl, hedits⟩

/-- A push that no call has asked for stops the walk. -/
theorem walk_fails (hu : Unframed post) (hserved : ¬ Served post) :
    ∀ {g : Graph} (pre : List Instr), g.Listed → g.code b = pre ++ post →
      ∃ err g', backward (post.map (·.id)) [] g = .error err g' := by
  induction post with
  | nil => exact absurd (fun after hafter => by simp [List.suffix_nil.mp hafter]) hserved
  | cons i post ih =>
    intro g pre hl hcode
    have hcode' : g.code b = (pre ++ [i]) ++ post := by simp [hcode]
    rw [List.map_cons, backward_cons]
    by_cases hrest : Served post
    · obtain ⟨pending, g₁, hok, waiting, post', hwoven, rfl, he⟩ := runs_walk hu.tail hrest _ hl hcode'
      rw [bind_of_ok hok]
      have hpositive : 0 < i.balance + (post.map (·.balance)).sum := by
        by_contra hle
        refine hserved fun after hafter => ?_
        rcases List.suffix_cons_iff.mp hafter with rfl | hafter
        · rw [List.map_cons, List.sum_cons]
          omega
        · exact hrest after hafter
      rw [hwoven.balance] at hpositive
      have hpush : i.op = .prim .push := by
        by_contra hpush
        have hle : i.balance ≤ 0 := by
          unfold Instr.balance
          split
          · contradiction
          · split <;> omega
        omega
      have hnone : waiting = [] := by
        rw [Instr.balance_push hpush] at hpositive
        cases hwaiting : waiting with
        | nil => rfl
        | cons w rest =>
          subst hwaiting
          have hpos := (hwoven.waits w (by simp)).2.1
          rw [List.map_cons, List.sum_cons] at hpositive
          omega
      subst hnone
      have hmem : i ∈ g₁.code b := by simp [he.code]
      refine ⟨.internal "pushArg" (i.id.name ++ " is not followed by a call"), g₁, ?_⟩
      rw [bind_of_ok (instrOf_of_mem he.listed hmem)]
      unfold expectPushes
      rw [hpush]
      rfl
    · obtain ⟨err, g₁, herror⟩ := ih hu.tail hrest _ hl hcode'
      exact ⟨err, g₁, bind_of_error herror⟩

/-- The pass over a block is the walk over it, at the end of which no call may wait. -/
theorem lowerCalls_apply (hl : g.Listed) (hb : b.index < g.blocks.size) :
    lowerCalls b g = (backward ((g.code b).map (·.id)) [] >>= fun pending =>
      match pending with
      | [] => return ()
      | top :: _ =>
        throw (.internal "call"
          (top.call.name ++ " is missing " ++ toString top.remaining ++ " argument pushes"))) g := by
  obtain ⟨B, hB, hlist, -⟩ := block_of_lt hb
  unfold lowerCalls
  rw [get_bind, hB]
  change (backward B.instrs [] >>= _) g = _
  exact hlist ▸ hl.code_ids b ▸ rfl

theorem runs_lowerCalls (hl : g.Listed) (hb : b.index < g.blocks.size) (hu : Unframed (g.code b))
    (hsettles : Settles (g.code b)) : Runs (lowerCalls b) g fun _ g' => ∃ code',
      Woven g.instrs.size b [] (g.code b) code' ∧ Edits g g' b code' := by
  obtain ⟨hserved, htotal⟩ := settles_iff.mp hsettles
  obtain ⟨pending, g', hok, waiting, code', hwoven, rfl, he⟩ :=
    runs_walk hu hserved [] hl rfl
  have hnone : waiting = [] := by
    rw [hwoven.balance] at htotal
    cases hwaiting : waiting with
    | nil => rfl
    | cons w rest =>
      subst hwaiting
      have hpos := (hwoven.waits w (by simp)).2.1
      rw [List.map_cons, List.sum_cons] at htotal
      omega
  subst hnone
  refine ⟨(), g', ?_, code', hwoven, he⟩
  rw [lowerCalls_apply hl hb, bind_of_ok hok]
  rfl

/-- The pass over a block succeeds if and only if its pushes and calls balance. -/
theorem lowerCalls_ok_iff (hl : g.Listed) (hb : b.index < g.blocks.size) (hu : Unframed (g.code b)) :
    (∃ g', lowerCalls b g = .ok () g') ↔ Settles (g.code b) := by
  constructor
  · rintro ⟨g', hok⟩
    rw [lowerCalls_apply hl hb] at hok
    by_cases hserved : Served (g.code b)
    · obtain ⟨pending, g₁, hwalk, waiting, code', hwoven, rfl, -⟩ :=
        runs_walk hu hserved [] hl rfl
      rw [bind_of_ok hwalk] at hok
      cases waiting with
      | nil => exact settles_iff.mpr ⟨hserved, hwoven.balance⟩
      | cons => cases hok
    · obtain ⟨err, g₁, herror⟩ := walk_fails hu hserved [] hl rfl
      rw [bind_of_error herror] at hok
      cases hok
  · intro hsettles
    obtain ⟨_, g', hok, _⟩ := runs_lowerCalls hl hb hu hsettles
    exact ⟨g', hok⟩

/-! ### What calls take -/

/-- The calls of a piece of code, each with the pushed values that it takes, the last one first. -/
def takenBy {α : Type} (x : Instr → α) : List Instr → List α → List (InstrId × List α)
  | [], _ => []
  | i :: rest, pushed =>
    if i.op = .prim .push then takenBy x rest (x i :: pushed)
    else if i.IsCall then (i.id, pushed.take i.taken) :: takenBy x rest (pushed.drop i.taken)
    else takenBy x rest pushed

section

variable {α : Type} {x : Instr → α} {code code' : List Instr} {pushed : List α}

theorem takenBy_push (h : i.op = .prim .push) :
    takenBy x (i :: code) pushed = takenBy x code (x i :: pushed) := if_pos h

theorem takenBy_call (h : i.IsCall) : takenBy x (i :: code) pushed =
    (i.id, pushed.take i.taken) :: takenBy x code (pushed.drop i.taken) := by
  rw [takenBy, if_neg h.op_ne_push, if_pos h]

theorem takenBy_idle (hpush : i.op ≠ .prim .push) (hcall : ¬ i.IsCall) :
    takenBy x (i :: code) pushed = takenBy x code pushed := by
  rw [takenBy, if_neg hpush, if_neg hcall]

theorem takenBy_redirect {call checked : InstrId} (code : List Instr) : ∀ pushed : List α,
    takenBy x (code.map (redirect call checked)) pushed = takenBy x code pushed := by
  induction code with
  | nil => exact fun _ => rfl
  | cons i code ih =>
    intro pushed
    rw [List.map_cons]
    by_cases hpush : i.op = .prim .push
    · rw [redirect_of_op_ne (by simp [hpush]), takenBy_push hpush, takenBy_push hpush, ih]
    · by_cases hcall : i.IsCall
      · rw [takenBy_call (redirect_isCall.mpr hcall), takenBy_call hcall, redirect_id, redirect_taken, ih]
      · rw [takenBy_idle (by simpa using hpush) (by simpa using hcall), takenBy_idle hpush hcall, ih]

/-- A prologue only takes the callee that it checks. -/
theorem Opening.takenBy_eq {new : List Instr} {f : Instr → Instr} (h : Opening n b i new f) (x : Instr → α) :
    ∃ checks : List (InstrId × List α), (∀ entry ∈ checks, n ≤ entry.1.index ∧ ∀ v ∈ entry.2,
        ∃ j ∈ new, j.op = .prim .push ∧ x j = v) ∧
      ∀ code pushed, takenBy x (new ++ code.map f) pushed = checks ++ takenBy x code pushed := by
  cases h with
  | stub =>
    refine ⟨[], by simp, fun code pushed => ?_⟩
    rw [List.map_id, List.singleton_append, takenBy_idle (by simp) (by simp [Instr.IsCall])]
    rfl
  | @call o₁ p c o₂ callee _ _ _ hc =>
    refine ⟨[(c, [x ⟨p, .prim .push, [callee], b⟩])], by simpa using hc, fun code pushed => ?_⟩
    simp only [List.cons_append, List.nil_append]
    rw [takenBy_idle (by simp) (by simp [Instr.IsCall]), takenBy_push rfl, takenBy_call (.inr rfl),
      takenBy_idle (by simp) (by simp [Instr.IsCall])]
    exact congrArg _ (takenBy_redirect _ _)

/-- The calls that were there before take the same as before. -/
theorem Woven.takenBy_old {waiting : List Waiting} (h : Woven n b waiting code code')
    (hold : ∀ i ∈ code, i.id.index < n) : ∀ pushed : List α,
      (takenBy x code' pushed).filter (fun entry => entry.1.index < n) = takenBy x code pushed := by
  have hskip : ∀ {call : Instr} {new : List Instr} {f : Instr → Instr}, Opening n b call new f →
      ∀ (code : List Instr) (pushed : List α),
        (takenBy x (new ++ code.map f) pushed).filter (fun entry => entry.1.index < n) =
          (takenBy x code pushed).filter (fun entry => entry.1.index < n) := by
    intro call new f hopening code pushed
    obtain ⟨checks, hchecks, heq⟩ := hopening.takenBy_eq x
    rw [heq, List.filter_append, List.filter_eq_nil_iff.mpr, List.nil_append]
    exact fun entry hentry => by simpa using (hchecks entry hentry).1
  induction h with
  | nil => exact fun _ => rfl
  | idle hpush hcall _ ih =>
    intro pushed
    rw [takenBy_idle hpush hcall, takenBy_idle hpush hcall, ih fun j hj => hold j (by simp [hj])]
  | @call _ i _ _ hcall _ _ ih =>
    intro pushed
    rw [takenBy_call hcall, takenBy_call hcall, List.filter_cons_of_pos (by simpa using hold i (by simp)),
      ih fun j hj => hold j (by simp [hj])]
  | @bare _ i _ _ _ _ hcall _ hopening _ ih =>
    intro pushed
    rw [hskip hopening, takenBy_call hcall, takenBy_call hcall,
      List.filter_cons_of_pos (by simpa using hold i (by simp)), ih fun j hj => hold j (by simp [hj])]
  | push hop _ ih =>
    intro pushed
    rw [takenBy_push hop, takenBy_push hop, ih fun j hj => hold j (by simp [hj])]
  | first hop hopening _ ih =>
    intro pushed
    rw [hskip hopening, takenBy_push hop, takenBy_push hop, ih fun j hj => hold j (by simp [hj])]

/-- The pushed values that waiting calls have got before a place. -/
abbrev Parts (waiting : List Waiting) (parts : List (List α)) : Prop :=
  List.Forall₂ (fun w part => part.length = w.before) waiting parts

/-- Every call finds as many pushed values as it takes. -/
theorem Woven.takenBy_full {waiting : List Waiting} (h : Woven n b waiting code code') :
    ∀ {parts : List (List α)}, Parts waiting parts →
      List.Forall₂ (fun i entry => entry.1 = i.id ∧ entry.2.length = i.taken) (code'.filter (·.IsCall))
        (takenBy x code' parts.flatten) := by
  have hrecall : ∀ {call checked : InstrId} {code : List Instr} {entries : List (InstrId × List α)},
      List.Forall₂ (fun i entry => entry.1 = i.id ∧ entry.2.length = i.taken) (code.filter (·.IsCall)) entries →
      List.Forall₂ (fun i entry => entry.1 = i.id ∧ entry.2.length = i.taken)
        ((code.map (redirect call checked)).filter (·.IsCall)) entries := by
    intro call checked code entries hall
    rw [List.filter_map, List.forall₂_map_left_iff]
    simpa [Function.comp_def] using hall
  have hopen : ∀ {call : Instr} {new : List Instr} {f : Instr → Instr} {code : List Instr} {pushed : List α},
      Opening n b call new f →
      List.Forall₂ (fun i entry => entry.1 = i.id ∧ entry.2.length = i.taken) (code.filter (·.IsCall))
        (takenBy x code pushed) →
      List.Forall₂ (fun i entry => entry.1 = i.id ∧ entry.2.length = i.taken)
        ((new ++ code.map f).filter (·.IsCall)) (takenBy x (new ++ code.map f) pushed) := by
    intro call new f code pushed hopening hall
    cases hopening with
    | stub =>
      rw [List.map_id, List.singleton_append, List.filter_cons_of_neg (by simp [Instr.IsCall]),
        takenBy_idle (by simp) (by simp [Instr.IsCall])]
      exact hall
    | call =>
      simp only [List.cons_append, List.nil_append]
      rw [takenBy_idle (by simp) (by simp [Instr.IsCall]), takenBy_push rfl, takenBy_call (.inr rfl),
        takenBy_idle (by simp) (by simp [Instr.IsCall]), takenBy_redirect,
        List.filter_cons_of_neg (by simp [Instr.IsCall]), List.filter_cons_of_neg (by simp [Instr.IsCall]),
        List.filter_cons_of_pos (by simp [Instr.IsCall]), List.filter_cons_of_neg (by simp [Instr.IsCall])]
      exact .cons ⟨rfl, rfl⟩ (hrecall hall)
  induction h with
  | nil => exact fun _ => .nil
  | idle hpush hcall _ ih =>
    intro parts hparts
    rw [takenBy_idle hpush hcall, List.filter_cons_of_neg (by simpa using hcall)]
    exact ih hparts
  | call hcall _ _ ih =>
    intro parts hparts
    cases hparts with
    | cons hfirst hrest =>
      rw [takenBy_call hcall, List.filter_cons_of_pos (by simpa using hcall), List.flatten_cons,
        List.drop_left' hfirst, List.take_left' hfirst]
      exact .cons ⟨rfl, hfirst⟩ (ih hrest)
  | bare hcall htaken hopening _ ih =>
    intro parts hparts
    refine hopen hopening ?_
    rw [takenBy_call hcall, List.filter_cons_of_pos (by simpa using hcall), htaken]
    exact .cons ⟨rfl, htaken.symm⟩ (ih hparts)
  | push hop _ ih =>
    intro parts hparts
    cases hparts with
    | @cons _ part _ parts hfirst hrest =>
      rw [takenBy_push hop, List.filter_cons_of_neg (by simp [Instr.IsCall, hop])]
      exact @ih ((x _ :: part) :: parts) (.cons (by simpa using hfirst) hrest)
  | first hop hopening _ ih =>
    intro parts hparts
    refine hopen hopening ?_
    rw [takenBy_push hop, List.filter_cons_of_neg (by simp [Instr.IsCall, hop])]
    exact @ih ([x _] :: parts) (.cons rfl hparts)

/-- Where a value that a call takes comes from: it was pushed after a place, or for a call that waits
there. -/
def Origin (x : Instr → α) (code : List Instr) (own : List (Waiting × List α)) (id : InstrId) (v : α) : Prop :=
  (∃ j ∈ code, j.op = .prim .push ∧ x j = v) ∨ ∃ p ∈ own, p.1.call.id = id ∧ v ∈ p.2

theorem Origin.cons {own : List (Waiting × List α)} {id : InstrId} {v : α} (h : Origin x code own id v) :
    Origin x (i :: code) own id v :=
  h.imp_left fun ⟨j, hj, hv⟩ => ⟨j, List.mem_cons_of_mem _ hj, hv⟩

theorem Opening.origin {new : List Instr} {f : Instr → Instr} (h : Opening n b i new f)
    {own : List (Waiting × List α)}
    (hall : ∀ id args, (id, args) ∈ takenBy x code pushed → ∀ v ∈ args, Origin x code own id v) :
    ∀ id args, (id, args) ∈ takenBy x (new ++ code.map f) pushed → ∀ v ∈ args,
      Origin x (new ++ code.map f) own id v := by
  intro id args hmem v hv
  obtain ⟨checks, hchecks, heq⟩ := h.takenBy_eq x
  rw [heq, List.mem_append] at hmem
  rcases hmem with hmem | hmem
  · obtain ⟨j, hj, hop, hx⟩ := (hchecks _ hmem).2 v hv
    exact .inl ⟨j, List.mem_append_left _ hj, hop, hx⟩
  · refine (hall id args hmem v hv).imp_left ?_
    rintro ⟨j, hj, hop, hx⟩
    exact ⟨j, List.mem_append_right _ (List.mem_map.mpr ⟨j, hj, h.fixes (.inl (by simp [hop]))⟩), hop, hx⟩

theorem Woven.origin {waiting : List Waiting} (h : Woven n b waiting code code') :
    ∀ {parts : List (List α)}, Parts waiting parts → ∀ id args, (id, args) ∈ takenBy x code' parts.flatten →
      ∀ v ∈ args, Origin x code' (waiting.zip parts) id v := by
  induction h with
  | nil => simp [takenBy]
  | @idle _ i _ _ hop hcall _ ih =>
    intro parts hparts id args hmem v hv
    rw [takenBy_idle hop hcall] at hmem
    exact (ih hparts id args hmem v hv).cons
  | @call _ i _ _ hcall _ _ ih =>
    intro parts hparts id args hmem v hv
    cases hparts with
    | @cons _ part _ parts hfirst hrest =>
      rw [takenBy_call hcall, List.flatten_cons, List.drop_left' hfirst, List.take_left' hfirst] at hmem
      rcases List.mem_cons.mp hmem with heq | hmem
      · cases heq
        exact .inr ⟨_, List.mem_cons_self .., rfl, hv⟩
      · exact (ih hrest id args hmem v hv).cons.imp_right fun ⟨p, hp, hv⟩ => ⟨p, List.mem_cons_of_mem _ hp, hv⟩
  | @bare _ i _ _ _ _ hcall htaken hopening _ ih =>
    intro parts hparts
    refine hopening.origin fun id args hmem v hv => ?_
    rw [takenBy_call hcall, htaken] at hmem
    rcases List.mem_cons.mp hmem with heq | hmem
    · cases heq
      cases hv
    · exact (ih hparts id args hmem v hv).cons
  | @push _ call i _ _ _ _ hop _ ih =>
    intro parts hparts id args hmem v hv
    cases hparts with
    | @cons _ part _ parts hfirst hrest =>
      rw [takenBy_push hop] at hmem
      rcases @ih ((x i :: part) :: parts) (.cons (by simpa using hfirst) hrest) id args hmem v hv with h | h
      · exact Origin.cons (.inl h)
      · obtain ⟨p, hp, hid, hv⟩ := h
        rw [List.zip_cons_cons] at hp
        rcases List.mem_cons.mp hp with rfl | hp
        · rcases List.mem_cons.mp hv with rfl | hv
          · exact .inl ⟨i, by simp, hop, rfl⟩
          · exact .inr ⟨_, List.mem_cons_self .., hid, hv⟩
        · exact .inr ⟨p, List.mem_cons_of_mem _ hp, hid, hv⟩
  | @first _ call i _ _ _ _ _ hop hopening _ ih =>
    intro parts hparts
    refine hopening.origin fun id args hmem v hv => ?_
    rw [takenBy_push hop] at hmem
    rcases @ih ([x i] :: parts) (.cons rfl hparts) id args hmem v hv with h | h
    · exact Origin.cons (.inl h)
    · obtain ⟨p, hp, hid, hv⟩ := h
      rw [List.zip_cons_cons] at hp
      rcases List.mem_cons.mp hp with rfl | hp
      · obtain rfl := List.mem_singleton.mp hv
        exact .inl ⟨i, by simp, hop, rfl⟩
      · exact .inr ⟨p, hp, hid, hv⟩

/-- A function call takes its callee from the check in its prologue, which stands before all that the
call takes. -/
def Checked (x : Instr → α) (n : Nat) (b : BlockId) (i : Instr) (code' : List Instr) (pushed : List α) : Prop :=
  ∃ c new before after, Opening n b i new (redirect i.id c) ∧ code' = before ++ (new ++ after) ∧
    redirect i.id c i ∈ after ∧ ∀ args, (i.id, args) ∈ takenBy x code' pushed → ∀ v ∈ args,
      ∃ j ∈ after, j.op = .prim .push ∧ x j = v

theorem Checked.cons {j : Instr} {pushed' : List α} (h : Checked x n b i code' pushed)
    (htaken : ∀ args, (i.id, args) ∈ takenBy x (j :: code') pushed' → (i.id, args) ∈ takenBy x code' pushed) :
    Checked x n b i (j :: code') pushed' := by
  obtain ⟨c, new, before, after, hopening, rfl, hmem, hall⟩ := h
  exact ⟨c, new, j :: before, after, hopening, rfl, hmem, fun args hargs => hall args (htaken args hargs)⟩

/-- The prologue of another call changes nothing about it. -/
theorem Checked.opening {call : Instr} {new : List Instr} {f : Instr → Instr} (h : Checked x n b i code' pushed)
    (hopening : Opening n b call new f) (hne : i.id ≠ call.id) (hold : i.id.index < n) :
    Checked x n b i (new ++ code'.map f) pushed := by
  obtain ⟨c, new', before, after, hopening', rfl, hmem, hall⟩ := h
  obtain ⟨checks, hchecks, heq⟩ := hopening.takenBy_eq x
  have hnew : new'.map f = new' :=
    (List.map_congr_left fun j hj => hopening.fixes (.inl (hopening'.op_ne j hj))).trans (List.map_id _)
  refine ⟨c, new', new ++ before.map f, after.map f, hopening', ?_, ?_, fun args hargs v hv => ?_⟩
  · rw [List.map_append, List.map_append, hnew, List.append_assoc]
  · exact List.mem_map.mpr ⟨_, hmem, hopening.fixes (.inr (by simpa using hne))⟩
  · rw [heq, List.mem_append] at hargs
    rcases hargs with hargs | hargs
    · have := (hchecks _ hargs).1
      simp only at this
      omega
    · obtain ⟨j, hj, hop, hx⟩ := hall args hargs v hv
      exact ⟨j, List.mem_map.mpr ⟨j, hj, hopening.fixes (.inl (by simp [hop]))⟩, hop, hx⟩

theorem id_mem_of_takenBy {id : InstrId} {args : List α} (h : (id, args) ∈ takenBy x code pushed) :
    id ∈ code.map (·.id) := by
  induction code generalizing pushed with
  | nil => cases h
  | cons i code ih =>
    rw [List.map_cons, List.mem_cons]
    by_cases hpush : i.op = .prim .push
    · rw [takenBy_push hpush] at h
      exact .inr (ih h)
    · by_cases hcall : i.IsCall
      · rw [takenBy_call hcall] at h
        rcases List.mem_cons.mp h with heq | h
        · exact .inl (Prod.mk.inj heq).1
        · exact .inr (ih h)
      · rw [takenBy_idle hpush hcall] at h
        exact .inr (ih h)

/-- A function call right after whose prologue all that it takes is pushed. -/
theorem Checked.here {new : List Instr} {f : Instr → Instr} (hopening : Opening n b i new f)
    (hop : i.op = .prim .call) (hmem : i ∈ code) (hold : i.id.index < n)
    (hall : ∀ args, (i.id, args) ∈ takenBy x code pushed → ∀ v ∈ args, ∃ j ∈ code, j.op = .prim .push ∧ x j = v) :
    Checked x n b i (new ++ code.map f) pushed := by
  obtain ⟨checks, hchecks, heq⟩ := hopening.takenBy_eq x
  have hcalls : ∃ c, f = redirect i.id c := by
    cases hopening with
    | stub hstub => simp [hop] at hstub
    | @call o₁ p c o₂ => exact ⟨c, rfl⟩
  obtain ⟨c, rfl⟩ := hcalls
  refine ⟨c, new, [], _, hopening, rfl, List.mem_map_of_mem hmem, fun args hargs v hv => ?_⟩
  rw [heq, List.mem_append] at hargs
  rcases hargs with hargs | hargs
  · have := (hchecks _ hargs).1
    simp only at this
    omega
  · obtain ⟨j, hj, hpush, hx⟩ := hall args hargs v hv
    exact ⟨j, List.mem_map.mpr ⟨j, hj, hopening.fixes (.inl (by simp [hpush]))⟩, hpush, hx⟩

theorem Woven.checked {waiting : List Waiting} (h : Woven n b waiting code code')
    (hnodup : (code.map (·.id)).Nodup) (hold : ∀ i ∈ code, i.id.index < n) :
    ∀ {parts : List (List α)}, Parts waiting parts → ∀ i ∈ code, i.op = .prim .call →
      (∀ w ∈ waiting, w.call ≠ i) → Checked x n b i code' parts.flatten := by
  induction h with
  | nil => simp
  | @idle _ j _ _ hpush hcall _ ih =>
    intro parts hparts i hi hop hwait
    rw [List.map_cons, List.nodup_cons] at hnodup
    rcases List.mem_cons.mp hi with rfl | hi
    · exact absurd (.inl hop) hcall
    · refine (ih hnodup.2 (fun j hj => hold j (by simp [hj])) hparts i hi hop hwait).cons fun args hargs => ?_
      rwa [takenBy_idle hpush hcall] at hargs
  | @call _ j _ _ hcall _ _ ih =>
    intro parts hparts i hi hop hwait
    rw [List.map_cons, List.nodup_cons] at hnodup
    rw [List.forall_mem_cons] at hwait
    rcases List.mem_cons.mp hi with rfl | hi
    · exact absurd rfl hwait.1
    · cases hparts with
      | @cons _ part _ parts hfirst hrest =>
        refine (ih hnodup.2 (fun j hj => hold j (by simp [hj])) hrest i hi hop hwait.2).cons fun args hargs => ?_
        rw [takenBy_call hcall, List.flatten_cons, List.drop_left' hfirst] at hargs
        exact (List.mem_cons.mp hargs).resolve_left fun heq =>
          hnodup.1 ((Prod.mk.inj heq).1 ▸ List.mem_map_of_mem hi)
  | @bare _ j code code' new f hcall htaken hopening hrest ih =>
    intro parts hparts i hi hop hwait
    rw [List.map_cons, List.nodup_cons] at hnodup
    rcases List.mem_cons.mp hi with rfl | hi
    · refine .here hopening hop (by simp) (hold i (by simp)) fun args hargs v hv => ?_
      rw [takenBy_call hcall, htaken] at hargs
      rcases List.mem_cons.mp hargs with heq | hargs
      · cases heq
        cases hv
      · have hfilter : (i.id, args) ∈ (takenBy x code' _).filter (fun entry => entry.1.index < n) :=
          List.mem_filter.mpr ⟨hargs, by simpa using hold i (by simp)⟩
        rw [hrest.takenBy_old fun j hj => hold j (by simp [hj])] at hfilter
        exact absurd (id_mem_of_takenBy hfilter) hnodup.1
    · refine .opening (.cons (ih hnodup.2 (fun j hj => hold j (by simp [hj])) hparts i hi hop hwait)
        fun args hargs => ?_) hopening (fun heq => hnodup.1 (heq ▸ List.mem_map_of_mem hi)) (hold i (by simp [hi]))
      rw [takenBy_call hcall, htaken] at hargs
      exact (List.mem_cons.mp hargs).resolve_left fun heq =>
        hnodup.1 ((Prod.mk.inj heq).1 ▸ List.mem_map_of_mem hi)
  | @push _ call j _ _ _ _ hpush _ ih =>
    intro parts hparts i hi hop hwait
    rw [List.map_cons, List.nodup_cons] at hnodup
    rw [List.forall_mem_cons] at hwait
    rcases List.mem_cons.mp hi with rfl | hi
    · simp [hop] at hpush
    · cases hparts with
      | @cons _ part _ parts hfirst hrest =>
        refine (@ih hnodup.2 (fun j hj => hold j (by simp [hj])) ((x j :: part) :: parts)
          (.cons (by simpa using hfirst) hrest) i hi hop (List.forall_mem_cons.mpr hwait)).cons fun args hargs => ?_
        rwa [takenBy_push hpush] at hargs
  | @first waiting call j after code code' new f hpush hopening hrest ih =>
    intro parts hparts i hi hop hwait
    rw [List.map_cons, List.nodup_cons] at hnodup
    rcases List.mem_cons.mp hi with rfl | hi
    · simp [hop] at hpush
    · by_cases hcall : call = i
      · subst hcall
        have hdistinct := hnodup.2.sublist (hrest.sublist.map (·.id))
        rw [List.map_cons, List.map_cons, List.nodup_cons] at hdistinct
        refine .here hopening hop ?_ (hold call (by simp [hi])) fun args hargs v hv => ?_
        · exact List.mem_cons_of_mem _ (hrest.mem hnodup.2 ⟨call, 1, after⟩ (by simp))
        rw [takenBy_push hpush] at hargs
        have hown : Parts (⟨call, 1, after⟩ :: waiting) ([x j] :: parts) := .cons rfl hparts
        rcases hrest.origin hown _ _ hargs v hv with
          ⟨k, hk, hkop, hx⟩ | ⟨p, hp, hid, hv⟩
        · exact ⟨k, List.mem_cons_of_mem _ hk, hkop, hx⟩
        · rw [List.zip_cons_cons] at hp
          rcases List.mem_cons.mp hp with rfl | hp
          · exact ⟨j, by simp, hpush, (List.mem_singleton.mp hv).symm⟩
          · refine absurd (List.mem_map.mpr ⟨p.1.call, ?_, hid⟩) hdistinct.1
            exact List.mem_map.mpr ⟨p.1, (List.of_mem_zip hp).1, rfl⟩
      · refine .opening (.cons (@ih hnodup.2 (fun j hj => hold j (by simp [hj])) ([x j] :: parts)
          (.cons rfl hparts) i hi hop (List.forall_mem_cons.mpr ⟨hcall, hwait⟩)) fun args hargs => ?_) hopening
          (fun heq => ?_) (hold i (by simp [hi]))
        · rwa [takenBy_push hpush] at hargs
        · exact hcall (List.inj_on_of_nodup_map hnodup.2 (hrest.sublist.subset (by simp)) hi heq.symm)

end

end Lowering
end ScriptEngine
