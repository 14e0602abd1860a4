import ScriptEngine.Proofs.Graph.Dominance

/-!
Rewriting that keeps strict single assignment. Code is replaced group by group; a group keeps its
definitions, reads what the old group read or what it defines itself, and leaves parameters and the
values passed to them alone.
-/

namespace ScriptEngine.Lowering

open Graph

/-- A group of instructions that may stand for another one. -/
structure Faithful (xs ys : List Instr) : Prop where
  some : xs ≠ []
  phis : ∀ j ∈ xs ++ ys, j.op = .prim .phi → ys = xs
  passes : ys.filter (·.op == .prim .toPhi) = xs.filter (·.op == .prim .toPhi)
  defines : ∀ d ∈ xs, ∀ id, d.Defines id → ∃ d' ∈ ys, d'.Defines id
  /-- What is read is defined in the group, or was read in it without being defined there. -/
  reads : ∀ before j, before ++ [j] <+: ys → ∀ id ∈ j.reads, (∃ d ∈ before, d.Defines id) ∨
    ∃ before' i, before' ++ [i] <+: xs ∧ id ∈ i.reads ∧ ∀ d ∈ before', ¬ d.Defines id

/-- Code in which every group was replaced by another. -/
inductive Pieces (R : List Instr → List Instr → Prop) : List Instr → List Instr → Prop where
  | nil : Pieces R [] []
  | cons {xs ys rest rest' : List Instr} :
    R xs ys → Pieces R rest rest' → Pieces R (xs ++ rest) (ys ++ rest')

theorem Faithful.self (i : Instr) : Faithful [i] [i] where
  some := by simp
  phis _ _ _ := rfl
  passes := rfl
  defines d hd id h := ⟨d, hd, h⟩
  reads before j hpre id hid := by
    have hlen : before.length + 1 ≤ 1 := by simpa using hpre.length_le
    obtain rfl : before = [] := List.length_eq_zero_iff.mp (by omega)
    exact .inr ⟨[], j, hpre, hid, by simp⟩

section

variable {R : List Instr → List Instr → Prop} {xs ys xs' ys' : List Instr}

theorem Pieces.append (h : Pieces R xs ys) (h' : Pieces R xs' ys') :
    Pieces R (xs ++ xs') (ys ++ ys') := by
  induction h with
  | nil => exact h'
  | cons hr _ ih =>
    rw [List.append_assoc, List.append_assoc]
    exact .cons hr ih

theorem Pieces.single (h : R xs ys) : Pieces R xs ys := by
  have := Pieces.cons h .nil
  rwa [List.append_nil, List.append_nil] at this

/-- The group in which an instruction of the new code stands. -/
theorem Pieces.locate (h : Pieces R xs ys) {before : List Instr} {j : Instr}
    (hj : before ++ [j] <+: ys) : ∃ xs₁ ys₁ group group' before',
      Pieces R xs₁ ys₁ ∧ R group group' ∧ xs₁ ++ group <+: xs ∧ before = ys₁ ++ before' ∧
        before' ++ [j] <+: group' := by
  induction h generalizing before with
  | nil => simp at hj
  | @cons group group' rest rest' hr hrest ih =>
    by_cases hlen : before.length < group'.length
    · -- The instruction stands in the first group.
      refine ⟨[], [], group, group', before, .nil, hr, by simp, rfl, ?_⟩
      exact List.prefix_of_prefix_length_le hj (List.prefix_append _ _) (by simp; omega)
    · have hpre : group' <+: before := by
        refine List.prefix_of_prefix_length_le (List.prefix_append _ rest') ?_ (Nat.le_of_not_lt hlen)
        exact (List.prefix_append _ _).trans hj
      obtain ⟨before₁, rfl⟩ := hpre
      rw [List.append_assoc, List.prefix_append_right_inj] at hj
      obtain ⟨xs₁, ys₁, grp, grp', before', hp, hr', hxs, rfl, hb⟩ := ih hj
      refine ⟨group ++ xs₁, group' ++ ys₁, grp, grp', before', .cons hr hp, hr', ?_, ?_, hb⟩
      · rw [List.append_assoc, List.prefix_append_right_inj]
        exact hxs
      · rw [List.append_assoc]

variable (h : Pieces Faithful xs ys)

include h

theorem Pieces.mem_phi {j : Instr} (hj : j ∈ ys) (hop : j.op = .prim .phi) : j ∈ xs := by
  induction h with
  | nil => exact hj
  | cons hf _ ih =>
    rcases List.mem_append.mp hj with hj | hj
    · exact List.mem_append_left _ (hf.phis j (List.mem_append_right _ hj) hop ▸ hj)
    · exact List.mem_append_right _ (ih hj)

theorem Pieces.heads
    (hx : xs.Pairwise fun i j => j.op = .prim .phi → i.op = .prim .phi) :
    ys.Pairwise fun i j => j.op = .prim .phi → i.op = .prim .phi := by
  induction h with
  | nil => exact hx
  | @cons group group' rest rest' hf hrest ih =>
    obtain ⟨hgroup, hxs, hbetween⟩ := List.pairwise_append.mp hx
    refine List.pairwise_append.mpr ⟨?_, ih hxs, fun i hi j hj hop => ?_⟩
    · by_cases hphi : ∃ j ∈ group', j.op = .prim .phi
      · obtain ⟨j, hj, hop⟩ := hphi
        rw [hf.phis j (List.mem_append_right _ hj) hop]
        exact hgroup
      · exact List.pairwise_of_forall_mem_list fun _ _ j hj hop => absurd ⟨j, hj, hop⟩ hphi
    · -- A parameter further down makes all of the group parameters, which stay.
      have hall : ∀ i ∈ group, i.op = .prim .phi := fun i hi =>
        hbetween i hi j (hrest.mem_phi hj hop) hop
      obtain ⟨i₀, hi₀⟩ := List.exists_mem_of_ne_nil _ hf.some
      rw [hf.phis i₀ (List.mem_append_left _ hi₀) (hall i₀ hi₀)] at hi
      exact hall i hi

theorem Pieces.passes :
    ys.filter (·.op == .prim .toPhi) = xs.filter (·.op == .prim .toPhi) := by
  induction h with
  | nil => rfl
  | cons hf _ ih => rw [List.filter_append, List.filter_append, hf.passes, ih]

theorem Pieces.filter_passesTo (phi : InstrId) :
    ys.filter (·.passesTo phi) = xs.filter (·.passesTo phi) := by
  have hsplit : ∀ zs : List Instr, zs.filter (·.passesTo phi) =
      (zs.filter (·.op == .prim .toPhi)).filter (·.passesTo phi) := by
    intro zs
    rw [List.filter_filter]
    apply List.filter_congr
    intro i _
    by_cases hop : i.op = .prim .toPhi <;> simp [Instr.passesTo, hop]
  rw [hsplit, h.passes, ← hsplit]

theorem Pieces.defines {d : Instr} (hd : d ∈ xs) {id : InstrId} (hid : d.Defines id) :
    ∃ d' ∈ ys, d'.Defines id := by
  induction h with
  | nil => cases hd
  | cons hf _ ih =>
    rcases List.mem_append.mp hd with hd | hd
    · obtain ⟨d', hd', h'⟩ := hf.defines d hd id hid
      exact ⟨d', List.mem_append_left _ hd', h'⟩
    · obtain ⟨d', hd', h'⟩ := ih hd
      exact ⟨d', List.mem_append_right _ hd', h'⟩

end

/-- Strict single assignment is kept if all code is replaced faithfully. -/
theorem StrictSSA.of_faithful {g g' : Graph} (h : g.StrictSSA) (hl : g'.Listed)
    (hsize : g'.blocks.size = g.blocks.size) (hsucc : ∀ b, g'.successors b = g.successors b)
    (hcode : ∀ b, Pieces Faithful (g.code b) (g'.code b)) : g'.StrictSSA := by
  have hedge : g'.Edge = g.Edge := by
    funext a b
    rw [Graph.Edge, Graph.Edge, hsucc]
  have hdom : ∀ d b, g.Dominates d b → g'.Dominates d b := fun d b hd havoid =>
    hd (havoid.mono fun a b he => hedge ▸ he)
  refine ⟨hl, ?_, ?_, ?_, ?_, ?_, fun b => (hcode b).heads (h.heads b), ?_⟩
  · rw [hsize]
    exact h.entry
  · rw [hedge, hsize]
    exact h.inside
  · rw [hedge, hsize]
    exact h.reached
  · rw [hedge]
    exact h.acyclic
  · intro b before j hpre id hid
    obtain ⟨xs, ys, group, group', before', hp, hf, hxs, rfl, hb⟩ := (hcode b).locate hpre
    rcases hf.reads before' j hb id hid with ⟨d, hd, hdef⟩ | ⟨old, i, hold, hread, hno⟩
    · exact .inl ⟨d, by simp [hd], hdef⟩
    · have hi : (xs ++ old) ++ [i] <+: g.code b := by
        refine List.IsPrefix.trans ?_ hxs
        rw [List.append_assoc, List.prefix_append_right_inj]
        exact hold
      rcases h.defined b _ i hi id hread with ⟨d, hd, hdef⟩ | ⟨b', hne, hdoms, d, hd, hdef⟩
      · rcases List.mem_append.mp hd with hd | hd
        · obtain ⟨d', hd', hdef'⟩ := hp.defines hd hdef
          exact .inl ⟨d', by simp [hd'], hdef'⟩
        · exact absurd hdef (hno d hd)
      · exact .inr ⟨b', hne, hdom b' b hdoms, (hcode b').defines hd hdef⟩
  · rw [hedge]
    intro a b he phi hphi hop
    rw [(hcode a).filter_passesTo]
    obtain ⟨pass, value, hfilter, hins, hdef⟩ :=
      h.passed a b he phi ((hcode b).mem_phi hphi hop) hop
    refine ⟨pass, value, hfilter, hins, ?_⟩
    rcases hdef with ⟨d, hd, hdef⟩ | ⟨b', hne, hdoms, d, hd, hdef⟩
    · exact .inl ((hcode a).defines hd hdef)
    · exact .inr ⟨b', hne, hdom b' a hdoms, (hcode b').defines hd hdef⟩

end ScriptEngine.Lowering
