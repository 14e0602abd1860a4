import ScriptEngine.Proofs.Graph.Order

/-!
The search for the order of blocks on any graph, with cycles or without. If it ends well, it has found
every block that control can reach.
-/

namespace ScriptEngine.Graph

open Relation

variable {g : Graph}

/-- Where a search stands: what it has seen is on the stack or done, and it has seen or will see
whatever that leads to. -/
structure Covering (g : Graph) (stack : List (BlockId × List BlockId))
    (visited done : List BlockId) : Prop where
  known : ∀ b ∈ visited, b ∈ stack.map (·.1) ∨ b ∈ done
  pending : ∀ frame ∈ stack, ∀ s, g.Edge frame.1 s → s ∈ frame.2 ∨ s ∈ visited
  closed : ∀ b ∈ done, ∀ s, g.Edge b s → s ∈ visited

section

variable {b next : BlockId} {rest : List BlockId} {stack : List (BlockId × List BlockId)}
  {visited done : List BlockId}

theorem Covering.finish (h : g.Covering ((b, []) :: stack) visited done) :
    g.Covering stack visited (b :: done) where
  known x hx := by
    have hcases := h.known x hx
    simp only [List.map_cons, List.mem_cons] at hcases ⊢
    tauto
  pending frame hf := h.pending frame (List.mem_cons_of_mem _ hf)
  closed x hx s hs := by
    rcases List.mem_cons.mp hx with rfl | hx
    · exact (h.pending (x, []) (by simp) s hs).resolve_left (by simp)
    · exact h.closed x hx s hs

theorem Covering.skip (h : g.Covering ((b, next :: rest) :: stack) visited done)
    (hnext : next ∈ visited) : g.Covering ((b, rest) :: stack) visited done where
  known := h.known
  pending := by
    rintro frame (_ | ⟨_, hf⟩) s hs
    · rcases h.pending (b, next :: rest) (by simp) s hs with hmem | hmem
      · rcases List.mem_cons.mp hmem with rfl | hmem
        · exact .inr hnext
        · exact .inl hmem
      · exact .inr hmem
    · exact h.pending frame (List.mem_cons_of_mem _ hf) s hs
  closed := h.closed

theorem Covering.enter (h : g.Covering ((b, next :: rest) :: stack) visited done) :
    g.Covering ((next, g.successors next) :: (b, rest) :: stack) (next :: visited) done where
  known x hx := by
    rcases List.mem_cons.mp hx with rfl | hx
    · simp
    · have hcases := h.known x hx
      simp only [List.map_cons, List.mem_cons] at hcases ⊢
      tauto
  pending := by
    rintro frame (_ | ⟨_, _ | ⟨_, hf⟩⟩) s hs
    · exact .inl hs
    · rcases h.pending (b, next :: rest) (by simp) s hs with hmem | hmem
      · rcases List.mem_cons.mp hmem with rfl | hmem
        · exact .inr (by simp)
        · exact .inl hmem
      · exact .inr (List.mem_cons_of_mem _ hmem)
    · exact (h.pending frame (List.mem_cons_of_mem _ hf) s hs).imp_right (List.mem_cons_of_mem _)
  closed x hx s hs := List.mem_cons_of_mem _ (h.closed x hx s hs)

end

/-- A search that ends well has finished everything that it saw, and what that leads to. -/
theorem search_covers {order : List BlockId} (fuel : Nat) :
    ∀ {stack : List (BlockId × List BlockId)} {visited done : List BlockId},
      g.Covering stack visited done → g.searchWork stack visited < fuel →
      g.search fuel stack visited done = .ok order →
      (∀ b ∈ visited, b ∈ order) ∧ ∀ b ∈ order, ∀ s, g.Edge b s → s ∈ order := by
  induction fuel with
  | zero =>
    intro _ _ _ _ hwork
    omega
  | succ fuel ih =>
    intro stack visited done h hwork hrun
    rcases stack with _ | ⟨⟨b, _ | ⟨next, rest⟩⟩, stack⟩
    · obtain rfl : done = order := Except.ok.inj hrun
      have hall : ∀ b ∈ visited, b ∈ done := fun b hb => (h.known b hb).resolve_left (by simp)
      exact ⟨hall, fun b hb s hs => hall s (h.closed b hb s hs)⟩
    · refine ih h.finish ?_ hrun
      simp only [searchWork, List.map_cons, List.sum_cons] at hwork ⊢
      omega
    · rw [search] at hrun
      split at hrun
      · rename_i hnext
        refine ih (h.skip hnext) ?_ hrun
        simp only [searchWork, List.map_cons, List.sum_cons, List.length_cons] at hwork ⊢
        omega
      · rename_i hnext
        by_cases hinside : next.index < g.blocks.size
        · have hblock : g.block next = .ok (g.blocks.getD next.index {}) := by
            simp [Graph.block, hinside]
          rw [hblock] at hrun
          have hwork' := searchWork_enter b rest stack hnext hinside
          obtain ⟨hall, hclosed⟩ := ih h.enter (by omega) hrun
          exact ⟨fun x hx => hall x (List.mem_cons_of_mem _ hx), hclosed⟩
        · have hblock : g.block next = .error (.unknownBlock next) := by
            simp [Graph.block, hinside]
          rw [hblock] at hrun
          cases hrun

/-- Every block that control can reach is in the order. -/
theorem mem_of_reversePostorder {order : List BlockId} (h : g.reversePostorder = .ok order)
    {b : BlockId} (hb : ReflTransGen g.Edge ⟨0⟩ b) : b ∈ order := by
  by_cases h0 : 0 < g.blocks.size
  · have hblock : g.block ⟨0⟩ = .ok (g.blocks.getD 0 {}) := by simp [Graph.block, h0]
    have hstart : g.Covering [(⟨0⟩, g.successors ⟨0⟩)] [⟨0⟩] [] :=
      ⟨by simp, by simp +contextual [Edge], by simp⟩
    rw [reversePostorder, hblock] at h
    obtain ⟨hall, hclosed⟩ :=
      search_covers _ hstart (Nat.lt_succ_of_le (searchWork_start h0).le) h
    induction hb with
    | refl => exact hall ⟨0⟩ (by simp)
    | tail _ he ih => exact hclosed _ ih _ he
  · have hblock : g.block ⟨0⟩ = .error (.unknownBlock ⟨0⟩) := by simp [Graph.block, h0]
    rw [reversePostorder, hblock] at h
    cases h

/-- A search that has not finished a block twice, or while it is on the stack, ends with an order of
different blocks. -/
theorem search_nodup {order : List BlockId} (fuel : Nat) :
    ∀ {stack : List (BlockId × List BlockId)} {visited done : List BlockId},
      (stack.map (·.1) ++ done).Nodup → stack.map (·.1) ++ done ⊆ visited →
      g.search fuel stack visited done = .ok order → order.Nodup := by
  induction fuel with
  | zero =>
    intro stack visited done hnodup _ hrun
    obtain rfl : done = order := Except.ok.inj hrun
    exact (List.nodup_append.mp hnodup).2.1
  | succ fuel ih =>
    intro stack visited done hnodup hseen hrun
    rcases stack with _ | ⟨⟨b, _ | ⟨next, rest⟩⟩, stack⟩
    · obtain rfl : done = order := Except.ok.inj hrun
      exact hnodup
    · have hperm : (((b, []) :: stack).map (·.1) ++ done).Perm (stack.map (·.1) ++ b :: done) :=
        List.perm_middle.symm
      exact ih (hperm.nodup_iff.mp hnodup) (fun x hx => hseen (hperm.mem_iff.mpr hx)) hrun
    · rw [search] at hrun
      split at hrun
      · exact @ih ((b, rest) :: stack) _ _ hnodup hseen hrun
      · rename_i hnext
        cases hblock : g.block next with
        | error e =>
          rw [hblock] at hrun
          cases hrun
        | ok content =>
          rw [hblock] at hrun
          refine ih ?_ ?_ hrun
          · exact List.nodup_cons.mpr ⟨fun hmem => hnext (hseen hmem), hnodup⟩
          · exact fun x hx => (List.mem_cons.mp hx).elim (by simp +contextual)
              fun hx => List.mem_cons_of_mem _ (hseen hx)

theorem nodup_of_reversePostorder {order : List BlockId} (h : g.reversePostorder = .ok order) :
    order.Nodup := by
  cases hblock : g.block ⟨0⟩ with
  | error e =>
    rw [reversePostorder, hblock] at h
    cases h
  | ok content =>
    rw [reversePostorder, hblock] at h
    exact search_nodup _ (by simp) (by simp) h

end ScriptEngine.Graph
