import ScriptEngine.Proofs.Lowering.Steps

/-!
The pass over allocations. When it meets an array literal, it also turns stores further down the
block into direct ones, before it gets there itself.
-/

namespace ScriptEngine.Lowering

open State Graph

/-- What happens to an instruction before the pass reaches it. -/
def Ahead (g₀ : Graph) (i : Instr) (piece : List Instr) : Prop :=
  piece = [i] ∨ i.op = .script .storeProperty ∧ Step g₀ 3 i piece

section

variable {g₀ g g' : Graph} {b : BlockId} {pre piece post : List Instr} {i j : Instr} {n : Nat}

/-- A piece that is not the instruction itself has no stores, and nothing else for the pass. -/
theorem Step.objects_cases (h : Step g₀ 3 i piece) :
    piece = [i] ∨ (∀ j ∈ piece, j.op ≠ .script .storeProperty) ∧ ∀ j ∈ piece, Stays 3 j.op := by
  cases h with
  | keep => exact .inl rfl
  | object => right; simp [Stays]
  | array => right; simp [Stays]
  | construct => right; simp [Stays]
  | element => right; simp [Stays]

/-! ### Stores into an array literal -/

/-- The small integer that a result always has comes from a literal of the graph at the start. -/
theorem runs_smiOf {k : InstrId} (hl : g.Listed) (ht : Tame g₀ g)
    (hn : g₀.instrs.size ≤ g.instrs.size) (hk : k.index < g₀.instrs.size) :
    Runs (smiOf? (.value k)) g fun n? g' => g' = g ∧
      ∀ n, n? = some n → ∃ b', literalInstr b' k (.smi n) ∈ g₀.code b' := by
  obtain ⟨j, hget⟩ : ∃ j, g.instrs[k.index]? = some j :=
    ⟨_, Array.getElem?_eq_getElem (hk.trans_le hn)⟩
  obtain rfl : j.id = k := hl.id_of_getElem? hget
  have hmem := hl.mem_code_of_getElem? hget
  refine Runs.instrOf hl hmem ?_
  by_cases hop : j.op = .prim .literal
  · rw [if_pos hop]
    obtain ⟨⟨c, hins⟩, hold⟩ := ht _ j hmem hop
    refine Runs.ask (a := c) (by rw [Instr.constInput, hins]; rfl) ?_
    rw [pure_bind]
    beta_reduce
    split
    · rename_i n hc
      cases hc
      refine Runs.pure ⟨rfl, ?_⟩
      rintro _ ⟨⟩
      have heq : literalInstr j.block j.id (.smi n) = j := by
        rw [literalInstr, ← hop, ← hins]
      exact ⟨j.block, heq ▸ hold hk⟩
    · exact Runs.pure ⟨rfl, by simp⟩
  · rw [if_neg hop]
    exact Runs.pure ⟨rfl, by simp⟩

theorem Ahead.expansion_self (mid : List Instr) : Expansion (New n (Ahead g₀)) mid mid := by
  induction mid with
  | nil => exact .nil
  | cons i rest ih => exact Expansion.cons ⟨.inl rfl, Fresh.self _ i⟩ ih

/-- Operands of the stores in a piece of code. -/
def StoresRead (n : Nat) (code : List Instr) : Prop :=
  ∀ i ∈ code, i.op = .script .storeProperty →
    ∃ o k v, i.inputs = [.value o, .value k, .value v] ∧ k.index < n

theorem runs_elements {array : InstrId} {length : Nat}
    (harray : ⟨array, .script .array, [raw length], b⟩ ∈ g₀.code b) :
    ∀ (mid : List Instr) (g : Graph) (pre : List Instr), g.Listed → Tame g₀ g →
      g₀.instrs.size ≤ g.instrs.size → g.code b = pre ++ mid →
      StoresRead g₀.instrs.size mid →
      Runs (lowerElements array length (mid.map (·.id))) g fun _ g' => Tame g₀ g' ∧
        ∃ mid', Edits g g' b (pre ++ mid') ∧
          Expansion (New g₀.instrs.size (Ahead g₀)) mid mid'
  | [], g, pre, hl, ht, _, hcode, _ =>
    Runs.pure ⟨ht, [], ⟨hl, hcode, fun _ _ => rfl, rfl, fun _ => rfl, le_rfl⟩, .nil⟩
  | i :: rest, g, pre, hl, ht, hn, hcode, hreads => by
    have hmem : i ∈ g.code b := by simp [hcode]
    have hblock := hl.block_of_mem hmem
    -- Wherever the walk ends, the rest of the block stays as it is.
    have hstop : Runs (Pure.pure () : LowerM Unit) g fun _ g' => Tame g₀ g' ∧
        ∃ mid', Edits g g' b (pre ++ mid') ∧
          Expansion (New g₀.instrs.size (Ahead g₀)) (i :: rest) mid' :=
      Runs.pure ⟨ht, i :: rest, ⟨hl, hcode, fun _ _ => rfl, rfl, fun _ => rfl, le_rfl⟩,
        Ahead.expansion_self _⟩
    have hrest : StoresRead g₀.instrs.size rest := fun j hj => hreads j (by simp [hj])
    refine Runs.instrOf hl hmem ?_
    split
    · have hcode' : g.code b = (pre ++ [i]) ++ rest := by simp [hcode]
      refine (runs_elements harray rest g (pre ++ [i]) hl ht hn hcode' hrest).mono ?_
      rintro _ g' ⟨ht', mid', he, hexp⟩
      refine ⟨ht', [i] ++ mid', ?_, .cons ⟨.inl rfl, Fresh.self _ _⟩ hexp⟩
      rw [← List.append_assoc]
      exact he
    · split
      · exact hstop
      · rename_i hop
        obtain ⟨o, k, v, hins, hk⟩ := hreads i (by simp) (not_not.mp hop)
        obtain ⟨x, op, ins, b'⟩ := i
        obtain rfl : op = .script .storeProperty := not_not.mp hop
        obtain rfl : ins = [.value o, .value k, .value v] := hins
        obtain rfl : b = b' := hblock.symm
        refine Runs.ask (a := Input.value o) rfl ?_
        split
        · exact hstop
        · rename_i ho
          obtain rfl : array = o := by simpa using (not_not.mp ho).symm
          refine Runs.ask (a := Input.value k) rfl (Runs.ask (a := Input.value v) rfl ?_)
          refine (runs_smiOf hl ht hn hk).bind ?_
          rintro n? _ ⟨rfl, hsmi⟩
          cases n? with
          | none => exact hstop
          | some index =>
            simp only
            split
            · rename_i hrange
              refine ((Cursor.start hl hcode).literal (.smi index)).bind fun slot g₁ h₁ => ?_
              refine (h₁.push (.value v)).bind ?_
              rintro _ g₂ ⟨p₁, h₂⟩
              refine (h₂.push (.value slot)).bind ?_
              rintro _ g₃ ⟨p₂, h₃⟩
              refine (h₃.push (.value k)).bind ?_
              rintro _ g₄ ⟨p₃, h₄⟩
              refine (h₄.push (.value array)).bind ?_
              rintro _ g₅ ⟨p₄, h₅⟩
              refine (h₅.toStubCall rfl _ _).bind fun _ g₆ hputs => ?_
              have hstore : ElementStore g₀ b array k index :=
                ⟨⟨length, hrange.2, harray⟩, hrange.1, hsmi index rfl⟩
              have hstep := @Step.element g₀ x array k v slot p₁ p₂ p₃ p₄ b index hstore
              have hcode₆ := hputs.edits.code
              rw [← List.append_assoc] at hcode₆
              refine (runs_elements harray rest g₆ _ hputs.edits.listed
                (ht.puts hn hcode hstep hputs) (hn.trans hputs.edits.instrs) hcode₆ hrest).mono ?_
              rintro _ g₇ ⟨ht', mid', he, hexp⟩
              refine ⟨ht', _, ?_, .cons ⟨.inr ⟨rfl, hstep⟩, hputs.fresh.mono hn⟩ hexp⟩
              rw [← List.append_assoc]
              exact hputs.edits.trans he
            · exact hstop

/-! ### The pass -/

/-- What was changed ahead of the pass is not changed again. -/
theorem Ahead.trans {xs ys zs : List Instr} (h : Expansion (New n (Ahead g₀)) xs ys)
    (h' : Expansion (New n (Ahead g₀)) ys zs) : Expansion (New n (Ahead g₀)) xs zs := by
  induction h generalizing zs with
  | nil => exact h'
  | @cons i piece rest rest' hi _ ih =>
    obtain ⟨zs₁, zs₂, rfl, h₁, h₂⟩ := h'.append_inv
    refine .cons ?_ (ih h₂)
    have hcases : piece = [i] ∨ ∀ j ∈ piece, j.op ≠ .script .storeProperty := by
      rcases hi.1 with he | ⟨-, hstep⟩
      · exact .inl he
      · exact hstep.objects_cases.imp_right fun h => h.1
    rcases hcases with rfl | hno
    · cases h₁ with
      | cons hj hnil =>
        cases hnil
        rwa [List.append_nil]
    · have hsame : zs₁ = piece := by
        refine h₁.eq_of_forall fun j hj piece' hj' => ?_
        rcases hj'.1 with he | ⟨hop, -⟩
        · exact he
        · exact absurd hop (hno j hj)
      rw [hsame]
      exact hi

/-- The stores that are still ahead are those of the graph at the start. -/
theorem Ahead.storesRead {xs ys : List Instr} (h : Expansion (New n (Ahead g₀)) xs ys)
    (hx : StoresRead n xs) : StoresRead n ys := by
  intro j hj hop
  obtain ⟨i, hi, piece, ⟨hr, -⟩, hjp⟩ := h.mem hj
  have hcases : piece = [i] ∨ ∀ j ∈ piece, j.op ≠ .script .storeProperty := by
    rcases hr with he | ⟨-, hstep⟩
    · exact .inl he
    · exact hstep.objects_cases.imp_right fun h => h.1
  rcases hcases with rfl | hno
  · obtain rfl := List.mem_singleton.mp hjp
    exact hx j hi hop
  · exact absurd hop (hno j hjp)

/-- The part of a listing after one of its instructions. -/
theorem after_listing {new : List Instr} {last : Instr} (hl : g.Listed)
    (hcode : g.code b = pre ++ ((new ++ [last]) ++ post)) :
    ((g.listing b).dropWhile (· ≠ last.id)).drop 1 = post.map (·.id) := by
  have hcode' : g.code b = (pre ++ new) ++ last :: post := by simp [hcode]
  obtain ⟨hsplit, hnot⟩ := listing_split hl hcode'
  have hskip : ∀ (ids rest : List InstrId) (x : InstrId), x ∉ ids →
      (ids ++ x :: rest).dropWhile (· ≠ x) = x :: rest := by
    intro ids rest x
    induction ids with
    | nil => simp
    | cons y ys ih =>
      intro hx
      rw [List.mem_cons, not_or] at hx
      rw [List.cons_append, List.dropWhile_cons_of_pos (by simpa using Ne.symm hx.1), ih hx.2]
  rw [hsplit, hskip _ _ _ hnot, List.drop_one, List.tail_cons]

theorem lowerObject_of_stays (h : Stays 3 i.op) : lowerObject b i = pure () := by
  unfold lowerObject
  split
  · rename_i hop
    exact absurd rfl (h _ hop)
  · rename_i hop
    exact absurd rfl (h _ hop)
  · rename_i hop
    exact absurd rfl (h _ hop)
  · rfl

/-- One step of the pass, at an instruction that nothing happened to so far. -/
theorem runs_object (hl : g.Listed) (ht : Tame g₀ g) (hn : g₀.instrs.size ≤ g.instrs.size)
    (hi : i ∈ g₀.code b) (hshape : Shaped i) (hcode : g.code b = pre ++ i :: post)
    (hreads : StoresRead g₀.instrs.size post) :
    Runs (lowerObject b i) g fun _ g' => Tame g₀ g' ∧ ∃ piece post',
      New g₀.instrs.size (Step g₀ 3) i piece ∧
        Expansion (New g₀.instrs.size (Ahead g₀)) post post' ∧
        Edits g g' b (pre ++ (piece ++ post')) := by
  have hmem : i ∈ g.code b := by simp [hcode]
  have hblock := hl.block_of_mem hmem
  -- All but array literals only touch the instruction itself.
  have hputs {piece : List Instr} {g' : Graph} (hstep : Step g₀ 3 i piece)
      (h : Puts g g' b pre piece i post) : Tame g₀ g' ∧ ∃ piece post',
        New g₀.instrs.size (Step g₀ 3) i piece ∧
          Expansion (New g₀.instrs.size (Ahead g₀)) post post' ∧
          Edits g g' b (pre ++ (piece ++ post')) :=
    ⟨ht.puts hn hcode hstep h, piece, post, ⟨hstep, h.fresh.mono hn⟩, Ahead.expansion_self _,
      h.edits⟩
  obtain ⟨x, op, ins, b'⟩ := i
  obtain rfl : b' = b := hblock
  cases op with
  | prim p => exact (Runs.keep hl hcode).mono fun _ _ h => hputs (.keep (by simp [Stays])) h.2
  | script s =>
    cases s with
    | object =>
      cases hshape.simple_script (by simp) (by simp)
      exact ((Cursor.start hl hcode).toStubCall rfl _ _).mono fun _ _ h => hputs .object h
    | array =>
      cases hshape.simple_script (by simp) (by simp) with
      | array length =>
        refine Runs.ask (a := (length : Int)) rfl ?_
        refine ((Cursor.start hl hcode).literal (.smi length)).bind fun n g₁ h₁ => ?_
        refine (h₁.push (.value n)).bind ?_
        rintro _ g₂ ⟨p, h₂⟩
        refine (h₂.toStubCall rfl _ _).bind fun _ g₃ h₃ => ?_
        have hstep := Step.array (g := g₀) (x := x) (n := n) (p := p) (b := b') length
        have ht₃ := ht.puts hn hcode hstep h₃
        have hcode₃ := h₃.edits.code
        rw [← List.append_assoc] at hcode₃
        obtain ⟨B, hB, hlist, -⟩ := block_of_lt (lt_of_mem_code hmem |>.trans_eq h₃.edits.blocks.symm)
        refine Runs.get (Runs.ask hB ?_)
        have hafter := after_listing h₃.edits.listed h₃.edits.code
        rw [hlist]
        simp only at hafter ⊢
        rw [hafter]
        refine (runs_elements hi post g₃ _ h₃.edits.listed ht₃ (hn.trans h₃.edits.instrs) hcode₃
          hreads).mono ?_
        rintro _ g₄ ⟨ht₄, post', he, hexp⟩
        refine ⟨ht₄, _, post', ⟨hstep, h₃.fresh.mono hn⟩, hexp, ?_⟩
        rw [← List.append_assoc]
        exact h₃.edits.trans he
    | construct =>
      obtain ⟨f, argc, rfl⟩ : ∃ f, ∃ argc : Nat, ins = [.value f, raw argc] := by
        cases hshape with
        | phi h => cases h.1
        | push h => cases h.1
        | simple h => cases h
        | takes h =>
          cases h with
          | construct f => exact ⟨f, _, rfl⟩
        | pass h => cases h.1
        | exit hop _ => rcases hop with hop | hop | hop <;> cases hop
      refine Runs.ask (a := Input.value f) rfl (Runs.ask (a := (argc : Int)) rfl ?_)
      rw [if_neg (by omega)]
      refine ((Cursor.start hl hcode).literal (.smi argc)).bind fun n g₁ h₁ => ?_
      refine (h₁.push (.value f)).bind ?_
      rintro _ g₂ ⟨p₁, h₂⟩
      refine (h₂.push (.value n)).bind ?_
      rintro _ g₃ ⟨p₂, h₃⟩
      exact (h₃.toStubCall rfl _ _).mono fun _ _ h => hputs (.construct argc) h
    | _ => exact (Runs.keep hl hcode).mono fun _ _ h => hputs (.keep (by simp [Stays, stage])) h.2

/-- The pass over what is left of a block, parts of which are changed already. -/
theorem runs_object_rest : ∀ (todo mid : List Instr) (g : Graph) (pre : List Instr), g.Listed →
    Tame g₀ g → g₀.instrs.size ≤ g.instrs.size → g.code b = pre ++ mid →
    Expansion (New g₀.instrs.size (Ahead g₀)) todo mid →
    (∀ i ∈ todo, i ∈ g₀.code b ∧ Shaped i) → StoresRead g₀.instrs.size todo →
    Runs ((todo.map (·.id)).forM fun id => do lowerObject b (← instrOf id)) g fun _ g' =>
      Tame g₀ g' ∧ ∃ code, Edits g g' b (pre ++ code) ∧
        Expansion (New g₀.instrs.size (Step g₀ 3)) todo code
  | [], mid, g, pre, hl, ht, _, hcode, hmid, _, _ => by
    cases hmid
    exact Runs.pure ⟨ht, [], ⟨hl, hcode, fun _ _ => rfl, rfl, fun _ => rfl, le_rfl⟩, .nil⟩
  | i :: rest, mid, g, pre, hl, ht, hn, hcode, hmid, htodo, hreads => by
    obtain ⟨hi, hshape⟩ := htodo i (by simp)
    have hrest : StoresRead g₀.instrs.size rest := fun j hj => hreads j (by simp [hj])
    obtain ⟨piece, mid', hr, hfresh, hexp, rfl⟩ : ∃ piece mid', Ahead g₀ i piece ∧
        Fresh g₀.instrs.size i piece ∧ Expansion (New g₀.instrs.size (Ahead g₀)) rest mid' ∧
        mid = piece ++ mid' := by
      cases hmid with
      | cons hnew hrest => exact ⟨_, _, hnew.1, hnew.2, hrest, rfl⟩
    refine Runs.bind (P := fun _ g' => Tame g₀ g' ∧ ∃ piece mid',
      New g₀.instrs.size (Step g₀ 3) i piece ∧
        Expansion (New g₀.instrs.size (Ahead g₀)) rest mid' ∧
        Edits g g' b (pre ++ (piece ++ mid'))) ?_ ?_
    · have hcases : piece = [i] ∨ Step g₀ 3 i piece ∧ ∀ j ∈ piece, Stays 3 j.op := by
        rcases hr with he | ⟨-, hstep⟩
        · exact .inl he
        · exact hstep.objects_cases.imp_right fun h => ⟨hstep, h.2⟩
      rcases hcases with rfl | ⟨hstep, hstays⟩
      · have hmem : i ∈ g.code b := by
          rw [hcode]
          simp
        refine Runs.instrOf hl hmem ?_
        refine (runs_object hl ht hn hi hshape hcode (Ahead.storesRead hexp hrest)).mono ?_
        rintro _ g' ⟨ht', piece, mid'', hnew, hexp', he⟩
        exact ⟨ht', piece, mid'', hnew, Ahead.trans hexp hexp', he⟩
      · obtain ⟨new, last, rfl, hid, -⟩ := id hfresh
        have hmem : last ∈ g.code b := by
          rw [hcode]
          simp
        simp only [← hid]
        refine Runs.instrOf hl hmem ?_
        rw [lowerObject_of_stays (hstays last (by simp))]
        exact Runs.pure ⟨ht, new ++ [last], mid', ⟨hstep, hfresh⟩, hexp, hl, hcode, fun _ _ => rfl,
          rfl, fun _ => rfl, le_rfl⟩
    · rintro _ g₁ ⟨ht₁, piece, mid', hnew, hexp', he⟩
      have hcode₁ : g₁.code b = (pre ++ piece) ++ mid' := by rw [he.code, List.append_assoc]
      refine (runs_object_rest rest mid' g₁ (pre ++ piece) he.listed ht₁ (hn.trans he.instrs) hcode₁
        hexp' (fun j hj => htodo j (by simp [hj])) hrest).mono ?_
      rintro _ g₂ ⟨ht₂, code, he₂, hexp₂⟩
      refine ⟨ht₂, piece ++ code, ?_, .cons hnew hexp₂⟩
      rw [← List.append_assoc]
      exact he.trans he₂

theorem runs_objects (hl : g.Listed) (hs : ∀ b, ∀ i ∈ g.code b, Shaped i)
    (hreads : ∀ b, ∀ i ∈ g.code b, ∀ id ∈ i.reads, id.index < g.instrs.size) :
    Runs (g.blockIds.forM lowerObjects) g fun _ g' => Rewrites (Step g 3) g g' := by
  have hstores : ∀ b, StoresRead g.instrs.size (g.code b) := by
    intro b i hi hop
    have hread := hreads b i hi
    obtain ⟨x, op, ins, b'⟩ := i
    obtain rfl : op = .script .storeProperty := hop
    cases (hs b _ hi).simple_script (by simp) (by simp) with
    | storeProperty o k v => exact ⟨o, k, v, rfl, hread k (by simp [Instr.reads, Input.value?])⟩
  refine runs_pass hl (tame_of_shaped hs) fun b hb g' hl' ht hn hsize hcode => ?_
  obtain ⟨B, hB, hlist, -⟩ := block_of_lt (hb.trans_eq hsize.symm)
  refine Runs.get (Runs.ask hB ?_)
  rw [hlist, ← hl'.code_ids b, hcode]
  exact runs_object_rest (g.code b) (g.code b) g' [] hl' ht hn hcode (Ahead.expansion_self _)
    (fun i hi => ⟨hi, hs b i hi⟩) (hstores b)

end

end ScriptEngine.Lowering
