import Mathlib.Data.List.Nodup
import Mathlib.Logic.Function.Basic
import ScriptEngine.Proofs.Lowering.Editing

/-!
Passes as rewriting. A pass replaces every instruction of a block by a piece of code that ends with
an instruction of the same number; all other numbers in the piece are new.
-/

namespace ScriptEngine.Lowering

open State Graph

/-! ### Editing around one instruction -/

/-- `g` is `g₀` with new code before the instruction `i` of a block. -/
structure Cursor (g₀ g : Graph) (b : BlockId) (pre new : List Instr) (i : Instr)
    (post : List Instr) : Prop where
  edits : Edits g₀ g b (pre ++ (new ++ i :: post))
  fresh : ∀ j ∈ new, j.block = b ∧ g₀.instrs.size ≤ j.id.index

section

variable {α : Type} {g₀ g : Graph} {b : BlockId} {pre new post : List Instr} {i : Instr}

theorem Cursor.start (hl : g.Listed) (hcode : g.code b = pre ++ i :: post) :
    Cursor g g b pre [] i post :=
  ⟨⟨hl, hcode, fun _ _ => rfl, rfl, fun _ => rfl, le_rfl⟩, by simp⟩

theorem Cursor.insert (h : Cursor g₀ g b pre new i post) (op : PrimOp) (ins : List Input) :
    Runs (insertBefore i.id op ins) g fun id g' =>
      Cursor g₀ g' b pre (new ++ [⟨id, .prim op, ins, b⟩]) i post := by
  have hcode : g.code b = (pre ++ new) ++ i :: post := by rw [h.edits.code, List.append_assoc]
  refine (insertBefore_ok h.edits.listed hcode op ins).mono ?_
  rintro id g' ⟨rfl, he⟩
  refine ⟨?_, fun j hj => ?_⟩
  · have := h.edits.trans he
    simpa using this
  · rcases List.mem_append.mp hj with hj | hj
    · exact h.fresh j hj
    · obtain rfl := List.mem_singleton.mp hj
      exact ⟨rfl, h.edits.instrs⟩

/-- A new instruction has the next number. -/
theorem size_insertBefore {anchor id : InstrId} {op : PrimOp} {ins : List Input} {g' : Graph}
    (h : insertBefore anchor op ins g = .ok id g') : id = ⟨g.instrs.size⟩ ∧ g'.instrs.size = g.instrs.size + 1 := by
  unfold insertBefore change at h
  split at h
  case h_2 => cases h
  rename_i hrun
  cases h
  unfold Graph.insertBefore at hrun
  simp only [bind, Except.bind] at hrun
  split at hrun
  · cases hrun
  · split at hrun
    · cases hrun
    · split at hrun
      · cases hrun
        exact ⟨rfl, Array.size_push _⟩
      · cases hrun

theorem Cursor.insert_next (h : Cursor g₀ g b pre new i post) (op : PrimOp) (ins : List Input) :
    Runs (insertBefore i.id op ins) g fun id g' => id = ⟨g.instrs.size⟩ ∧ g'.instrs.size = g.instrs.size + 1 ∧
      Cursor g₀ g' b pre (new ++ [⟨id, .prim op, ins, b⟩]) i post := by
  obtain ⟨id, g', hrun, hcursor⟩ := h.insert op ins
  obtain ⟨hid, hsize⟩ := size_insertBefore hrun
  exact ⟨id, g', hrun, hid, hsize, hcursor⟩

theorem Cursor.literal (h : Cursor g₀ g b pre new i post) (c : Const) :
    Runs (literalBefore i.id c) g fun id g' =>
      Cursor g₀ g' b pre (new ++ [⟨id, .prim .literal, [.const c], b⟩]) i post :=
  h.insert .literal [.const c]

theorem Cursor.push (h : Cursor g₀ g b pre new i post) (v : Input) :
    Runs (pushBefore i.id v) g fun _ g' =>
      ∃ id, Cursor g₀ g' b pre (new ++ [⟨id, .prim .push, [v], b⟩]) i post := by
  obtain ⟨id, g', hok, hc⟩ := h.insert .push [v]
  exact ⟨(), g', discard_eq_ok.mpr ⟨id, hok⟩, id, hc⟩

theorem Cursor.push_next (h : Cursor g₀ g b pre new i post) (v : Input) :
    Runs (pushBefore i.id v) g fun _ g' => g'.instrs.size = g.instrs.size + 1 ∧
      Cursor g₀ g' b pre (new ++ [⟨⟨g.instrs.size⟩, .prim .push, [v], b⟩]) i post := by
  obtain ⟨id, g', hok, rfl, hsize, hc⟩ := h.insert_next .push [v]
  exact ⟨(), g', discard_eq_ok.mpr ⟨_, hok⟩, hsize, hc⟩

end

/-- A piece of code ends with an instruction of the number that it stands for; all others have new
numbers. -/
def Fresh (n : Nat) (i : Instr) (piece : List Instr) : Prop :=
  ∃ new last, piece = new ++ [last] ∧ last.id = i.id ∧ last.block = i.block ∧
    ∀ j ∈ new, j.block = i.block ∧ n ≤ j.id.index

theorem Fresh.mono {n n' : Nat} {i : Instr} {piece : List Instr} (h : Fresh n i piece)
    (hle : n' ≤ n) : Fresh n' i piece := by
  obtain ⟨new, last, he, hid, hb, hnew⟩ := h
  exact ⟨new, last, he, hid, hb, fun j hj => ⟨(hnew j hj).1, hle.trans (hnew j hj).2⟩⟩

theorem Fresh.self (n : Nat) (i : Instr) : Fresh n i [i] := ⟨[], i, rfl, rfl, rfl, by simp⟩

theorem Fresh.of_mem_dropLast {n : Nat} {i j : Instr} {piece : List Instr} (h : Fresh n i piece)
    (hj : j ∈ piece.dropLast) : n ≤ j.id.index := by
  obtain ⟨new, last, rfl, -, -, hnew⟩ := h
  rw [List.dropLast_concat] at hj
  exact (hnew j hj).2

/-- `g'` is `g` with a piece of code in place of one instruction. -/
structure Puts (g g' : Graph) (b : BlockId) (pre piece : List Instr) (i : Instr)
    (post : List Instr) : Prop where
  edits : Edits g g' b (pre ++ (piece ++ post))
  fresh : Fresh g.instrs.size i piece

theorem Cursor.replace {g₀ g : Graph} {b : BlockId} {pre new post : List Instr} {i : Instr}
    (h : Cursor g₀ g b pre new i post) (hi : i.block = b) (op : Op) (ins : List Input) :
    Runs (replace i.id op ins) g fun _ g' =>
      Puts g₀ g' b pre (new ++ [⟨i.id, op, ins, b⟩]) i post := by
  have hcode : g.code b = (pre ++ new) ++ i :: post := by rw [h.edits.code, List.append_assoc]
  refine (replace_ok h.edits.listed hcode op ins).mono fun _ g' he =>
    ⟨?_, new, _, rfl, rfl, hi.symm, fun j hj => ?_⟩
  · have := h.edits.trans he
    simpa using this
  · rw [hi]
    exact h.fresh j hj

theorem Cursor.toStubCall {g₀ g : Graph} {b : BlockId} {pre new post : List Instr} {i : Instr}
    (h : Cursor g₀ g b pre new i post) (hi : i.block = b) (stub : String) (argc : Nat) :
    Runs (toStubCall i.id stub argc) g fun _ g' =>
      Puts g₀ g' b pre (new ++ [⟨i.id, .prim .callStub, [.const (.stub stub), raw argc], b⟩]) i
        post :=
  h.replace hi _ _

/-- An instruction that a step leaves alone. -/
theorem Runs.keep {g : Graph} {b : BlockId} {pre post : List Instr} {i : Instr} (hl : g.Listed)
    (hcode : g.code b = pre ++ i :: post) :
    Runs (Pure.pure () : LowerM Unit) g fun _ g' => g' = g ∧ Puts g g' b pre [i] i post :=
  Runs.pure ⟨rfl, ⟨hl, hcode, fun _ _ => rfl, rfl, fun _ => rfl, le_rfl⟩, Fresh.self _ _⟩

/-! ### Whole blocks -/

/-- Code in which every instruction was replaced by a piece. -/
inductive Expansion (R : Instr → List Instr → Prop) : List Instr → List Instr → Prop where
  | nil : Expansion R [] []
  | cons {i : Instr} {piece rest rest' : List Instr} :
    R i piece → Expansion R rest rest' → Expansion R (i :: rest) (piece ++ rest')

namespace Expansion

variable {R S : Instr → List Instr → Prop} {xs xs' ys ys' : List Instr}

theorem append (h : Expansion R xs ys) (h' : Expansion R xs' ys') :
    Expansion R (xs ++ xs') (ys ++ ys') := by
  induction h with
  | nil => exact h'
  | cons hr _ ih =>
    rw [List.append_assoc]
    exact .cons hr ih

theorem mono (h : Expansion R xs ys) (hRS : ∀ i ∈ xs, ∀ piece, R i piece → S i piece) :
    Expansion S xs ys := by
  induction h with
  | nil => exact .nil
  | cons hr _ ih =>
    exact .cons (hRS _ (by simp) _ hr) (ih fun i hi => hRS i (by simp [hi]))

theorem append_inv (h : Expansion R (xs ++ xs') ys) :
    ∃ zs zs', ys = zs ++ zs' ∧ Expansion R xs zs ∧ Expansion R xs' zs' := by
  induction xs generalizing ys with
  | nil => exact ⟨[], ys, rfl, .nil, h⟩
  | cons i rest ih =>
    cases h with
    | @cons _ piece _ rest' hr hrest =>
      obtain ⟨zs, zs', rfl, h₁, h₂⟩ := ih hrest
      exact ⟨piece ++ zs, zs', by rw [List.append_assoc], .cons hr h₁, h₂⟩

theorem mem (h : Expansion R xs ys) {j : Instr} (hj : j ∈ ys) :
    ∃ i ∈ xs, ∃ piece, R i piece ∧ j ∈ piece := by
  induction h with
  | nil => cases hj
  | @cons i piece _ _ hr _ ih =>
    rcases List.mem_append.mp hj with hj | hj
    · exact ⟨i, by simp, piece, hr, hj⟩
    · obtain ⟨i', hi', h'⟩ := ih hj
      exact ⟨i', by simp [hi'], h'⟩

/-- Code in which no instruction changes. -/
theorem eq_of_forall (h : Expansion R xs ys) (hR : ∀ i ∈ xs, ∀ piece, R i piece → piece = [i]) :
    ys = xs := by
  induction h with
  | nil => rfl
  | cons hr _ ih =>
    rw [hR _ (by simp) _ hr, ih fun i hi => hR i (by simp [hi])]
    rfl

/-- The pieces of an expansion, by the instructions in whose place they stand. -/
theorem exists_pieces (h : Expansion R xs ys) (hnodup : (xs.map (·.id)).Nodup) :
    ∃ pieceOf : Instr → List Instr, (∀ i ∈ xs, R i (pieceOf i)) ∧ ys = xs.flatMap pieceOf := by
  induction h with
  | nil => exact ⟨fun _ => [], by simp, rfl⟩
  | @cons i piece rest rest' hr _ ih =>
    rw [List.map_cons, List.nodup_cons] at hnodup
    obtain ⟨pieceOf, hall, rfl⟩ := ih hnodup.2
    have hne : ∀ j ∈ rest, j ≠ i := by
      rintro j hj rfl
      exact hnodup.1 (List.mem_map_of_mem hj)
    refine ⟨Function.update pieceOf i piece, fun j hj => ?_, ?_⟩
    · rcases List.mem_cons.mp hj with rfl | hj
      · rwa [Function.update_self]
      · rw [Function.update_of_ne (hne j hj)]
        exact hall j hj
    · rw [List.flatMap_cons, Function.update_self]
      exact congrArg (piece ++ ·) (List.flatMap_congr fun j hj => (Function.update_of_ne (hne j hj) _ _).symm)

theorem of_pieces {pieceOf : Instr → List Instr} (h : ∀ i ∈ xs, R i (pieceOf i)) : Expansion R xs (xs.flatMap pieceOf) := by
  induction xs with
  | nil => exact .nil
  | cons i rest ih =>
    rw [List.flatMap_cons]
    exact .cons (h i (by simp)) (ih fun j hj => h j (by simp [hj]))

end Expansion

/-- A replacement by code with new numbers. -/
def New (n : Nat) (R : Instr → List Instr → Prop) (i : Instr) (piece : List Instr) : Prop :=
  R i piece ∧ Fresh n i piece

/-- What a step does to the instruction that it is applied to, whatever stands around it; all steps
keep `I`. -/
def Replaces (I : Graph → Prop) (n : Nat) (b : BlockId) (R : Instr → List Instr → Prop) (i : Instr)
    (step : LowerM Unit) : Prop :=
  ∀ g pre post, g.Listed → I g → n ≤ g.instrs.size → g.code b = pre ++ i :: post →
    Runs step g fun _ g' => I g' ∧ ∃ piece, R i piece ∧ Puts g g' b pre piece i post

section

variable {I : Graph → Prop} {n : Nat} {b : BlockId} {R : Instr → List Instr → Prop}
  {step : Instr → LowerM Unit}

theorem runs_forM : ∀ (todo : List Instr) (g : Graph) (done : List Instr), g.Listed → I g →
    n ≤ g.instrs.size → g.code b = done ++ todo → (∀ i ∈ todo, Replaces I n b R i (step i)) →
    Runs ((todo.map (·.id)).forM fun id => do step (← instrOf id)) g fun _ g' =>
      I g' ∧ ∃ code, Edits g g' b (done ++ code) ∧ Expansion (New n R) todo code
  | [], g, done, hl, hI, _, hcode, _ =>
    Runs.pure ⟨hI, [], ⟨hl, hcode, fun _ _ => rfl, rfl, fun _ => rfl, le_rfl⟩, .nil⟩
  | i :: rest, g, done, hl, hI, hn, hcode, hstep => by
    have hmem : i ∈ g.code b := by simp [hcode]
    refine Runs.bind (P := fun _ g' => I g' ∧ ∃ piece, R i piece ∧ Puts g g' b done piece i rest)
      ?_ ?_
    · exact Runs.instrOf hl hmem (hstep i (by simp) g done rest hl hI hn hcode)
    · rintro _ g₁ ⟨hI₁, piece, hr, hputs⟩
      have he := hputs.edits
      have hcode₁ : g₁.code b = (done ++ piece) ++ rest := by rw [he.code, List.append_assoc]
      refine (runs_forM rest g₁ (done ++ piece) he.listed hI₁ (hn.trans he.instrs) hcode₁
        fun j hj => hstep j (by simp [hj])).mono ?_
      rintro _ g₂ ⟨hI₂, code, he₂, hexp⟩
      refine ⟨hI₂, piece ++ code, ?_, .cons ⟨hr, hputs.fresh.mono hn⟩ hexp⟩
      rw [← List.append_assoc]
      exact he.trans he₂

theorem runs_forBlock {g : Graph} (hl : g.Listed) (hI : I g) (hn : n ≤ g.instrs.size)
    (hb : b.index < g.blocks.size) (hstep : ∀ i ∈ g.code b, Replaces I n b R i (step i)) :
    Runs (forBlock b step) g fun _ g' =>
      I g' ∧ ∃ code, Edits g g' b code ∧ Expansion (New n R) (g.code b) code := by
  obtain ⟨B, hB, hlist, -⟩ := block_of_lt hb
  refine Runs.get (Runs.ask hB ?_)
  rw [hlist, ← hl.code_ids b]
  exact runs_forM (g.code b) g [] hl hI hn rfl hstep

end

/-! ### Whole graphs -/

/-- `g'` is `g` with other code in its blocks. -/
structure Changes (T : BlockId → List Instr → Prop) (g g' : Graph) : Prop where
  listed : g'.Listed
  blocks : g'.blocks.size = g.blocks.size
  successors : ∀ b, g'.successors b = g.successors b
  instrs : g.instrs.size ≤ g'.instrs.size
  code : ∀ b : BlockId, b.index < g.blocks.size → T b (g'.code b)

/-- `g'` is `g` with every instruction replaced by a piece of code. -/
abbrev Rewrites (R : Instr → List Instr → Prop) (g g' : Graph) : Prop :=
  Changes (fun b code => Expansion (New g.instrs.size R) (g.code b) code) g g'

/-- What a pass does to a block that it has not reached yet, whatever it did to others. -/
def Covers (I : Graph → Prop) (T : BlockId → List Instr → Prop) (g₀ : Graph)
    (pass : BlockId → LowerM Unit) (b : BlockId) : Prop :=
  ∀ g, g.Listed → I g → g₀.instrs.size ≤ g.instrs.size → g.blocks.size = g₀.blocks.size →
    g.code b = g₀.code b →
    Runs (pass b) g fun _ g' => I g' ∧ ∃ code, Edits g g' b code ∧ T b code

section

variable {I : Graph → Prop} {T : BlockId → List Instr → Prop} {R : Instr → List Instr → Prop}
  {g₀ : Graph} {pass : BlockId → LowerM Unit}

theorem runs_blocks : ∀ (bs : List BlockId) (g : Graph), bs.Nodup → g.Listed → I g →
    g₀.instrs.size ≤ g.instrs.size → g.blocks.size = g₀.blocks.size →
    (∀ b ∈ bs, Covers I T g₀ pass b) → (∀ b ∈ bs, g.code b = g₀.code b) →
    Runs (bs.forM pass) g fun _ g' => g'.Listed ∧ g.instrs.size ≤ g'.instrs.size ∧
      g'.blocks.size = g.blocks.size ∧ (∀ b, g'.successors b = g.successors b) ∧
      (∀ b ∈ bs, T b (g'.code b)) ∧ ∀ b, b ∉ bs → g'.code b = g.code b
  | [], g, _, hl, _, _, _, _, _ =>
    Runs.pure ⟨hl, le_rfl, rfl, fun _ => rfl, by simp, fun _ _ => rfl⟩
  | b :: rest, g, hnodup, hl, hI, hn, hsize, hcovers, hcode => by
    rw [List.nodup_cons] at hnodup
    refine (hcovers b (by simp) g hl hI hn hsize (hcode b (by simp))).bind ?_
    rintro _ g₁ ⟨hI₁, code, he, hexp⟩
    have hcode₁ : ∀ b' ∈ rest, g₁.code b' = g₀.code b' := fun b' hb' => by
      rw [he.others b' fun h => hnodup.1 (h ▸ hb'), hcode b' (by simp [hb'])]
    refine (runs_blocks rest g₁ hnodup.2 he.listed hI₁ (hn.trans he.instrs)
      (he.blocks.trans hsize) (fun b' hb' => hcovers b' (by simp [hb'])) hcode₁).mono ?_
    rintro _ g₂ ⟨hl₂, hle₂, hsize₂, hsucc₂, hexp₂, hother₂⟩
    refine ⟨hl₂, he.instrs.trans hle₂, hsize₂.trans he.blocks,
      fun b' => (hsucc₂ b').trans (he.successors b'), fun b' hb' => ?_, fun b' hb' => ?_⟩
    · rcases List.mem_cons.mp hb' with rfl | hb'
      · rw [hother₂ _ hnodup.1, he.code]
        exact hexp
      · exact hexp₂ b' hb'
    · rw [List.mem_cons, not_or] at hb'
      exact (hother₂ b' hb'.2).trans (he.others b' hb'.1)

theorem nodup_blockIds (g : Graph) : g.blockIds.Nodup :=
  List.Nodup.map (fun _ _ h => by simpa using h) List.nodup_range

theorem mem_blockIds {g : Graph} {b : BlockId} : b ∈ g.blockIds ↔ b.index < g.blocks.size := by
  unfold blockIds
  simp only [List.mem_map, List.mem_range]
  constructor
  · rintro ⟨k, hk, rfl⟩
    exact hk
  · intro hb
    exact ⟨b.index, hb, rfl⟩

theorem code_eq_nil {g : Graph} {b : BlockId} (hb : ¬ b.index < g.blocks.size) : g.code b = [] := by
  rw [List.eq_nil_iff_forall_not_mem]
  exact fun i hi => hb (lt_of_mem_code hi)

/-- A pass over all blocks. -/
theorem runs_pass {g : Graph} (hl : g.Listed) (hI : I g)
    (hcovers : ∀ b : BlockId, b.index < g.blocks.size → Covers I T g pass b) :
    Runs (g.blockIds.forM pass) g fun _ g' => Changes T g g' := by
  refine (runs_blocks g.blockIds g (nodup_blockIds g) hl hI le_rfl rfl
    (fun b hb => hcovers b (mem_blockIds.mp hb)) fun _ _ => rfl).mono ?_
  rintro _ g' ⟨hl', hle, hsize, hsucc, hT, -⟩
  exact ⟨hl', hsize, hsucc, hle, fun b hb => hT b (mem_blockIds.mpr hb)⟩

/-- A pass that looks at each instruction by itself. -/
theorem runs_local {g : Graph} {step : Instr → LowerM Unit} (hl : g.Listed) (hI : I g)
    (hstep : ∀ b, ∀ i ∈ g.code b, Replaces I g.instrs.size b R i (step i)) :
    Runs (g.blockIds.forM fun b => forBlock b step) g fun _ g' => Rewrites R g g' := by
  refine runs_pass hl hI fun b hb g' hl' hI' hn hsize hcode => ?_
  refine (runs_forBlock (R := R) hl' hI' hn (hb.trans_eq hsize.symm) ?_).mono ?_
  · rw [hcode]
    exact hstep b
  · rintro _ g'' ⟨hI'', code, he, hexp⟩
    rw [hcode] at hexp
    exact ⟨hI'', code, he, hexp⟩

/-- The code of every block, also of those that a graph does not have. -/
theorem Changes.expansion {g g' : Graph} (h : Rewrites R g g') (b : BlockId) :
    Expansion (New g.instrs.size R) (g.code b) (g'.code b) := by
  by_cases hb : b.index < g.blocks.size
  · exact h.code b hb
  · rw [code_eq_nil hb, code_eq_nil (by rwa [h.blocks])]
    exact .nil

end

end ScriptEngine.Lowering
