import Mathlib.Data.List.Basic
import Mathlib.Order.Nat
import ScriptEngine.Lowering.Basic
import ScriptEngine.Proofs.Graph.Dominance
import ScriptEngine.Proofs.State

/-!
Single steps of lowering. An instruction can be inserted before another one, and replaced in place;
both change the code of one block only, and leave every other number as it is.
-/

namespace ScriptEngine.Lowering

open State Graph

/-- The steps succeed, with an answer and a graph of a certain kind. -/
def Runs {α : Type} (m : LowerM α) (g : Graph) (Q : α → Graph → Prop) : Prop :=
  ∃ a g', m g = .ok a g' ∧ Q a g'

section

variable {α β : Type} {g : Graph}

theorem Runs.bind {m : LowerM α} {f : α → LowerM β} {P : α → Graph → Prop} {Q : β → Graph → Prop}
    (h : Runs m g P) (hf : ∀ a g', P a g' → Runs (f a) g' Q) : Runs (m >>= f) g Q := by
  obtain ⟨a, g₁, hm, hP⟩ := h
  obtain ⟨b, g₂, hok, hQ⟩ := hf a g₁ hP
  exact ⟨b, g₂, bind_eq_ok.mpr ⟨a, g₁, hm, hok⟩, hQ⟩

theorem Runs.pure {a : α} {Q : α → Graph → Prop} (h : Q a g) : Runs (Pure.pure a) g Q :=
  ⟨a, g, rfl, h⟩

theorem Runs.get {f : Graph → LowerM α} {Q : α → Graph → Prop} (h : Runs (f g) g Q) :
    Runs (get >>= f) g Q := h

theorem Runs.ask {question : Except GraphError α} {a : α} (h : question = .ok a)
    {f : α → LowerM β} {Q : β → Graph → Prop} (hf : Runs (f a) g Q) :
    Runs (ask question >>= f) g Q := by
  rw [h]
  exact hf

theorem Runs.mono {m : LowerM α} {P Q : α → Graph → Prop} (h : Runs m g P)
    (hPQ : ∀ a g', P a g' → Q a g') : Runs m g Q := by
  obtain ⟨a, g', hm, hP⟩ := h
  exact ⟨a, g', hm, hPQ a g' hP⟩

end

/-- `g'` is `g` with other code in one block. -/
structure Edits (g g' : Graph) (b : BlockId) (code : List Instr) : Prop where
  listed : g'.Listed
  code : g'.code b = code
  others : ∀ b', b' ≠ b → g'.code b' = g.code b'
  blocks : g'.blocks.size = g.blocks.size
  successors : ∀ b', g'.successors b' = g.successors b'
  instrs : g.instrs.size ≤ g'.instrs.size

theorem Edits.refl {g : Graph} (h : g.Listed) (b : BlockId) : Edits g g b (g.code b) :=
  ⟨h, rfl, fun _ _ => rfl, rfl, fun _ => rfl, le_rfl⟩

theorem Edits.trans {g g₁ g₂ : Graph} {b : BlockId} {code₁ code₂ : List Instr}
    (h₁ : Edits g g₁ b code₁) (h₂ : Edits g₁ g₂ b code₂) : Edits g g₂ b code₂ where
  listed := h₂.listed
  code := h₂.code
  others b' hb := (h₂.others b' hb).trans (h₁.others b' hb)
  blocks := h₂.blocks.trans h₁.blocks
  successors b' := (h₂.successors b').trans (h₁.successors b')
  instrs := h₁.instrs.trans h₂.instrs

/-! ### Looking at a graph -/

section

variable {g : Graph} {b : BlockId}

theorem instr_of_mem (h : g.Listed) {i : Instr} (hi : i ∈ g.code b) : g.instr i.id = .ok i := by
  unfold Graph.instr
  rw [(h.mem_code_iff.mp hi).2]

theorem instrOf_of_mem (h : g.Listed) {i : Instr} (hi : i ∈ g.code b) : instrOf i.id g = .ok i g := by
  unfold instrOf
  rw [get_bind, instr_of_mem h hi]
  rfl

theorem Runs.instrOf {α : Type} (h : g.Listed) {i : Instr} (hi : i ∈ g.code b)
    {f : Instr → LowerM α} {Q : α → Graph → Prop} (hf : Runs (f i) g Q) :
    Runs (instrOf i.id >>= f) g Q := by
  obtain ⟨a, g', hok, hQ⟩ := hf
  exact ⟨a, g', (bind_of_ok (instrOf_of_mem h hi)).trans hok, hQ⟩

theorem block_of_lt (hb : b.index < g.blocks.size) :
    ∃ B, g.block b = .ok B ∧ B.instrs = g.listing b ∧ B.successors = g.successors b := by
  refine ⟨g.blocks[b.index], ?_, ?_, ?_⟩
  · rw [Graph.block, Array.getElem?_eq_getElem hb]
  · rw [listing, Array.getD_eq_getD_getElem?, Array.getElem?_eq_getElem hb]
    rfl
  · rw [Graph.successors, Array.getD_eq_getD_getElem?, Array.getElem?_eq_getElem hb]
    rfl

end

/-! ### Insertion and replacement -/

section

variable {g : Graph} {b : BlockId} {pre post : List Instr} {i : Instr}

theorem insertIn_eq {before after : List InstrId} {anchor id : InstrId} (h : anchor ∉ before) :
    insertIn anchor id (before ++ anchor :: after) = before ++ id :: anchor :: after := by
  induction before with
  | nil => simp [insertIn]
  | cons x rest ih =>
    rw [List.mem_cons, not_or] at h
    rw [List.cons_append, insertIn, if_neg (Ne.symm h.1), ih h.2]
    rfl

/-- The parts of a block around one of its instructions. -/
theorem listing_split (hl : g.Listed) (hcode : g.code b = pre ++ i :: post) :
    g.listing b = pre.map (·.id) ++ i.id :: post.map (·.id) ∧ i.id ∉ pre.map (·.id) := by
  have hids := hl.code_ids b
  have honce := hl.once b
  rw [hcode, List.map_append, List.map_cons] at hids
  refine ⟨hids.symm, ?_⟩
  rw [← hids, List.nodup_append] at honce
  exact fun hmem => honce.2.2 _ hmem _ (by simp) rfl

theorem filterMap_ids {arena : Array Instr} {code : List Instr}
    (h : ∀ j ∈ code, arena[j.id.index]? = some j) :
    ((code.map (·.id)).filterMap fun id => arena[id.index]?) = code := by
  induction code with
  | nil => rfl
  | cons j rest ih =>
    rw [List.map_cons, List.filterMap_cons, h j (by simp)]
    simp only
    rw [ih fun j hj => h j (by simp [hj])]

theorem insertBefore_ok (hl : g.Listed) (hcode : g.code b = pre ++ i :: post) (op : PrimOp)
    (ins : List Input) :
    Runs (insertBefore i.id op ins) g fun id g' => id = ⟨g.instrs.size⟩ ∧
      Edits g g' b (pre ++ ⟨id, .prim op, ins, b⟩ :: i :: post) := by
  have hmem : i ∈ g.code b := by simp [hcode]
  have hlt := lt_of_mem_code hmem
  obtain ⟨B, hB, hlist, hsucc⟩ := block_of_lt hlt
  obtain ⟨hsplit, hnot⟩ := listing_split hl hcode
  have hblock := hl.block_of_mem hmem
  let new : Instr := ⟨⟨g.instrs.size⟩, .prim op, ins, b⟩
  let g' : Graph := (g.addInstr b (.prim op) ins (insertIn i.id)).2
  have hrun : g.insertBefore i.id (.prim op) ins = .ok (⟨g.instrs.size⟩, g') := by
    unfold Graph.insertBefore
    rw [instr_of_mem hl hmem]
    change (do if i.id ∈ (← g.block i.block).instrs then _ else _ : Except _ _) = _
    rw [hblock, hB]
    change (if i.id ∈ B.instrs then _ else _) = _
    rw [if_pos (by rw [hlist, hsplit]; simp)]
    rfl
  have hold : ∀ k < g.instrs.size, g'.instrs[k]? = g.instrs[k]? := fun k hk => by
    change (g.instrs.push _)[k]? = _
    rw [Array.getElem?_push, if_neg hk.ne]
  have hnew : g'.instrs[g.instrs.size]? = some new := by
    change (g.instrs.push _)[g.instrs.size]? = _
    rw [Array.getElem?_push, if_pos rfl]
    rfl
  have hlisting : g'.listing b = pre.map (·.id) ++ ⟨g.instrs.size⟩ :: i.id :: post.map (·.id) := by
    have : g'.listing b = insertIn i.id ⟨g.instrs.size⟩ (g.listing b) := by
      simp only [g', addInstr, listing, Array.getD_eq_getD_getElem?, Array.getElem?_modify, if_pos,
        Array.getElem?_eq_getElem hlt, Option.map_some, Option.getD_some, nextInstr]
    rw [this, hsplit, insertIn_eq hnot]
  have hother : ∀ b', b' ≠ b → g'.listing b' = g.listing b' := fun b' hb' => by
    have hne : b.index ≠ b'.index := fun h => hb' (by cases b'; cases b; simpa using h.symm)
    simp only [g', addInstr, listing, Array.getD_eq_getD_getElem?, Array.getElem?_modify,
      if_neg hne]
  have hvalid : ∀ b' id, id ∈ g.listing b' → id.index < g.instrs.size := fun b' id hid => by
    obtain ⟨j, hj, -⟩ := hl.found b' id hid
    exact (Array.getElem?_eq_some_iff.mp hj).1
  have hlisted : g'.Listed := by
    refine ⟨fun k j hj => ?_, fun b' id hid => ?_, fun b' => ?_, fun k j hj => ?_⟩
    · by_cases hk : k < g.instrs.size
      · rw [hold k hk] at hj
        exact hl.numbered k j hj
      · have hsize := (Array.getElem?_eq_some_iff.mp hj).1
        have hk' : k < (g.instrs.push _).size := hsize
        rw [Array.size_push] at hk'
        obtain rfl : k = g.instrs.size := by omega
        rw [hnew] at hj
        cases hj
        rfl
    · have hcases : id = ⟨g.instrs.size⟩ ∧ b' = b ∨ id ∈ g.listing b' := by
        by_cases hb' : b' = b
        · subst hb'
          rw [hlisting] at hid
          rw [hsplit]
          simp only [List.mem_append, List.mem_cons] at hid ⊢
          tauto
        · rw [hother b' hb'] at hid
          exact .inr hid
      rcases hcases with ⟨rfl, rfl⟩ | hid
      · exact ⟨new, hnew, rfl⟩
      · obtain ⟨j, hj, hjb⟩ := hl.found b' id hid
        exact ⟨j, (hold _ (hvalid b' id hid)).trans hj, hjb⟩
    · by_cases hb' : b' = b
      · subst hb'
        have honce := hl.once b'
        have hfresh : (⟨g.instrs.size⟩ : InstrId) ∉ g.listing b' := fun hid =>
          absurd (hvalid b' _ hid) (lt_irrefl _)
        rw [hsplit] at honce hfresh
        rw [hlisting]
        exact (List.perm_middle.nodup_iff).mpr (List.nodup_cons.mpr ⟨hfresh, honce⟩)
      · rw [hother b' hb']
        exact hl.once b'
    · by_cases hk : k < g.instrs.size
      · rw [hold k hk] at hj
        have hid := hl.placed k j hj
        by_cases hb' : j.block = b
        · rw [hb'] at hid ⊢
          rw [hsplit] at hid
          rw [hlisting]
          simp only [List.mem_append, List.mem_cons] at hid ⊢
          tauto
        · rw [hother _ hb']
          exact hid
      · have hsize := (Array.getElem?_eq_some_iff.mp hj).1
        have hk' : k < (g.instrs.push _).size := hsize
        rw [Array.size_push] at hk'
        obtain rfl : k = g.instrs.size := by omega
        rw [hnew] at hj
        cases hj
        change (⟨g.instrs.size⟩ : InstrId) ∈ g'.listing b
        rw [hlisting]
        simp
  refine ⟨⟨g.instrs.size⟩, g', ?_, rfl, hlisted, ?_, fun b' hb' => ?_, ?_, fun b' => ?_, ?_⟩
  · unfold insertBefore change
    simp only [hrun]
  · have hsame : g'.listing b = (pre ++ new :: i :: post).map (·.id) := by
      rw [hlisting, List.map_append, List.map_cons, List.map_cons]
    rw [Graph.code, hsame]
    apply filterMap_ids
    intro j hj
    have hj' : j = new ∨ j ∈ g.code b := by
      rw [hcode]
      simp only [List.mem_append, List.mem_cons] at hj ⊢
      tauto
    rcases hj' with rfl | hj'
    · exact hnew
    · obtain ⟨hid, hget⟩ := hl.mem_code_iff.mp hj'
      exact (hold _ (hvalid b _ hid)).trans hget
  · rw [Graph.code, hother b' hb']
    exact List.filterMap_congr fun id hid => hold _ (hvalid b' id hid)
  · simp [g', addInstr]
  · simp only [g', addInstr, Graph.successors, Array.getD_eq_getD_getElem?, Array.getElem?_modify]
    split
    · cases g.blocks[b'.index]? <;> rfl
    · rfl
  · simp [g', addInstr]

theorem replace_ok (hl : g.Listed) (hcode : g.code b = pre ++ i :: post) (op : Op)
    (ins : List Input) :
    Runs (replace i.id op ins) g fun _ g' =>
      Edits g g' b (pre ++ ⟨i.id, op, ins, b⟩ :: post) := by
  have hmem : i ∈ g.code b := by simp [hcode]
  have hblock := hl.block_of_mem hmem
  obtain ⟨hid, hget⟩ := hl.mem_code_iff.mp hmem
  obtain ⟨hsplit, hnot⟩ := listing_split hl hcode
  let g' : Graph :=
    { g with instrs := g.instrs.modify i.id.index ({ · with op, inputs := ins }) }
  have hrun : g.replace i.id op ins = .ok g' := by
    unfold Graph.replace
    rw [instr_of_mem hl hmem]
    rfl
  have hlt : i.id.index < g.instrs.size := (Array.getElem?_eq_some_iff.mp hget).1
  have hself : g'.instrs[i.id.index]? = some ⟨i.id, op, ins, b⟩ := by
    simp only [g', Array.getElem?_modify, if_pos, hget, Option.map_some]
    rw [← hblock]
  have hold : ∀ k, k ≠ i.id.index → g'.instrs[k]? = g.instrs[k]? := fun k hk => by
    simp only [g', Array.getElem?_modify, if_neg hk.symm]
  have hcases : ∀ (k : Nat) (j : Instr), g'.instrs[k]? = some j →
      ∃ j₀, g.instrs[k]? = some j₀ ∧ j.id = j₀.id ∧ j.block = j₀.block := by
    intro k j hj
    by_cases hk : k = i.id.index
    · subst hk
      rw [hself] at hj
      cases hj
      exact ⟨i, hget, rfl, hblock.symm⟩
    · rw [hold k hk] at hj
      exact ⟨j, hj, rfl, rfl⟩
  have hlisted : g'.Listed := by
    refine ⟨fun k j hj => ?_, fun b' id hid => ?_, hl.once, fun k j hj => ?_⟩
    · obtain ⟨j₀, hj₀, he, -⟩ := hcases k j hj
      rw [he]
      exact hl.numbered k j₀ hj₀
    · obtain ⟨j, hj, hjb⟩ := hl.found b' id hid
      by_cases hk : id.index = i.id.index
      · rw [hk] at hj ⊢
        rw [hget] at hj
        cases hj
        exact ⟨_, hself, hblock.symm.trans hjb⟩
      · exact ⟨j, (hold _ hk).trans hj, hjb⟩
    · obtain ⟨j₀, hj₀, he, hb⟩ := hcases k j hj
      rw [he, hb]
      exact hl.placed k j₀ hj₀
  have hne : ∀ j : Instr, j.id ≠ i.id → j.id.index ≠ i.id.index := fun j hj he =>
    hj (by cases hji : j.id; cases hii : i.id; rw [hji, hii] at he; simpa using he)
  refine ⟨(), g', ?_, hlisted, ?_, fun b' hb' => ?_, rfl, fun _ => rfl, ?_⟩
  · unfold replace change
    simp only [hrun]
    rfl
  · have hsame : g'.listing b = (pre ++ (⟨i.id, op, ins, b⟩ : Instr) :: post).map (·.id) := by
      rw [List.map_append, List.map_cons, ← hsplit]
      rfl
    rw [Graph.code, hsame]
    apply filterMap_ids
    have honce := hl.once b
    rw [hsplit] at honce
    have hpost : i.id ∉ post.map (·.id) :=
      (List.nodup_cons.mp (List.nodup_append.mp honce).2.1).1
    intro j hj
    have hj' : j = ⟨i.id, op, ins, b⟩ ∨ j ∈ g.code b ∧ j.id ≠ i.id := by
      rw [hcode]
      simp only [List.mem_append, List.mem_cons] at hj ⊢
      rcases hj with hj | hj | hj
      · exact .inr ⟨.inl hj, fun he => hnot (he ▸ List.mem_map_of_mem hj)⟩
      · exact .inl hj
      · exact .inr ⟨.inr (.inr hj), fun he => hpost (he ▸ List.mem_map_of_mem hj)⟩
    rcases hj' with rfl | ⟨hj', hji⟩
    · exact hself
    · exact (hold _ (hne j hji)).trans (hl.mem_code_iff.mp hj').2
  · rw [Graph.code]
    apply List.filterMap_congr
    intro id hid'
    apply hold
    intro he
    have heq : id = i.id := by cases id; cases hii : i.id; rw [hii] at he; simpa using he
    obtain ⟨j, hj, hjb⟩ := hl.found b' id hid'
    rw [heq, hget] at hj
    cases hj
    exact hb' (hjb.symm.trans hblock)
  · simp [g']

end

end ScriptEngine.Lowering
