import ScriptEngine.Proofs.Graph.Search

/-!
The order of blocks for code generation, on any graph. While the search goes on, its stack is a way from the entry to
the block on top; so whatever dominates that block is below it on the stack, is finished later, and gets before it
in the order. An edge that leads back in the order is part of a cycle.
-/

namespace ScriptEngine.Graph

open Relation

variable {g : Graph}

/-- Control can get to the block. -/
def Reached (g : Graph) (b : BlockId) : Prop := ReflTransGen g.Edge ⟨0⟩ b

/-- A way from the entry, the last block first. -/
inductive Way (g : Graph) : List BlockId → Prop where
  | none : Way g []
  | entry : Way g [⟨0⟩]
  | step {a b : BlockId} {way : List BlockId} : Way g (a :: way) → g.Edge a b → Way g (b :: a :: way)

section

variable {b d : BlockId} {way : List BlockId}

theorem Way.tail (h : g.Way (b :: way)) : g.Way way := by
  cases h with
  | entry => exact .none
  | step h _ => exact h

theorem Way.reached (h : g.Way way) : ∀ x ∈ way, g.Reached x := by
  induction h with
  | none => exact nofun
  | entry =>
    intro x hx
    rw [List.mem_singleton.mp hx]
    exact .refl
  | step _ he ih =>
    intro x hx
    rcases List.mem_cons.mp hx with rfl | hx
    · exact (ih _ List.mem_cons_self).tail he
    · exact ih x hx

theorem Way.leads (h : g.Way (b :: way)) : ∀ x ∈ b :: way, ReflTransGen g.Edge x b := by
  induction way generalizing b with
  | nil =>
    intro x hx
    rw [List.mem_singleton.mp hx]
  | cons a way ih =>
    cases h with
    | step h he =>
      intro x hx
      rcases List.mem_cons.mp hx with rfl | hx
      · exact .refl
      · exact (ih h x hx).tail he

/-- A way to a block passes through all that dominates it. -/
theorem Way.mem_of_dominates (h : g.Way (b :: way)) (hd : g.Dominates d b) : d ∈ b :: way := by
  by_contra hmem
  refine hd ?_
  clear hd
  induction way generalizing b with
  | nil =>
    cases h with
    | entry => exact .entry fun heq => hmem (by simp [heq])
  | cons a way ih =>
    cases h with
    | step h he =>
      refine (ih h fun hd => hmem (List.mem_cons_of_mem _ hd)).step he fun heq => hmem (by simp [heq])

theorem dominates_entry (b : BlockId) : g.Dominates ⟨0⟩ b := by
  intro h
  induction h with
  | entry hne => exact hne rfl
  | step _ _ _ ih => exact ih

end

/-! ### The search -/

/-- Where a search stands on any graph. -/
structure Tracing (g : Graph) (stack : List (BlockId × List BlockId)) (done : List BlockId) : Prop where
  way : g.Way (stack.map (·.1))
  pending : ∀ frame ∈ stack, ∀ s ∈ frame.2, g.Edge frame.1 s
  inside : ∀ b, b ∈ stack.map (·.1) ∨ b ∈ done → b.index < g.blocks.size
  reached : ∀ b ∈ done, g.Reached b
  /-- What dominates a block that is done is still on the stack, or done after it. -/
  dominated : ∀ xs b ys, done = xs ++ b :: ys → ∀ d, g.Dominates d b → d ≠ b → d ∈ stack.map (·.1) ∨ d ∈ xs
  /-- An edge from a block leads to what was done before it, or goes back on a cycle. -/
  back : ∀ xs b ys, done = xs ++ b :: ys → ∀ s, g.Edge b s → s ∈ ys ∨ ReflTransGen g.Edge s b

section

variable {b next : BlockId} {rest : List BlockId} {stack : List (BlockId × List BlockId)}
  {visited done : List BlockId}

theorem Tracing.finish (h : g.Tracing ((b, []) :: stack) done) (hc : g.Covering ((b, []) :: stack) visited done) :
    g.Tracing stack (b :: done) where
  way := h.way.tail
  pending frame hf := h.pending frame (List.mem_cons_of_mem _ hf)
  inside x hx := by
    refine h.inside x ?_
    simp only [List.map_cons, List.mem_cons] at hx ⊢
    tauto
  reached x hx := by
    rcases List.mem_cons.mp hx with rfl | hx
    · exact h.way.reached x List.mem_cons_self
    · exact h.reached x hx
  dominated xs x ys hsplit d hd hne := by
    cases xs with
    | nil =>
      obtain ⟨rfl, -⟩ := List.cons.inj hsplit
      exact .inl ((List.mem_cons.mp (h.way.mem_of_dominates hd)).resolve_left hne)
    | cons x' xs =>
      obtain ⟨rfl, htail⟩ := List.cons.inj hsplit
      have hcases := h.dominated xs x ys htail d hd hne
      simp only [List.map_cons, List.mem_cons] at hcases ⊢
      tauto
  back xs x ys hsplit s hs := by
    cases xs with
    | nil =>
      obtain ⟨rfl, rfl⟩ := List.cons.inj hsplit
      have hvisited := (hc.pending (b, []) List.mem_cons_self s hs).resolve_left (by simp)
      exact (hc.known s hvisited).symm.imp_right (h.way.leads s)
    | cons x' xs => exact h.back xs x ys (List.cons.inj hsplit).2 s hs

theorem Tracing.skip (h : g.Tracing ((b, next :: rest) :: stack) done) : g.Tracing ((b, rest) :: stack) done where
  way := h.way
  pending := by
    rintro frame (_ | ⟨_, hf⟩) s hs
    · exact h.pending (b, next :: rest) List.mem_cons_self s (List.mem_cons_of_mem _ hs)
    · exact h.pending frame (List.mem_cons_of_mem _ hf) s hs
  inside := h.inside
  reached := h.reached
  dominated := h.dominated
  back := h.back

theorem Tracing.edge (h : g.Tracing ((b, next :: rest) :: stack) done) : g.Edge b next :=
  h.pending (b, next :: rest) List.mem_cons_self next List.mem_cons_self

theorem Tracing.enter (h : g.Tracing ((b, next :: rest) :: stack) done) (hinside : next.index < g.blocks.size) :
    g.Tracing ((next, g.successors next) :: (b, rest) :: stack) done where
  way := h.way.step h.edge
  pending := by
    rintro frame (_ | ⟨_, hf⟩) s hs
    · exact hs
    · exact h.skip.pending frame hf s hs
  inside x hx := by
    rcases hx with hx | hx
    · rcases List.mem_cons.mp hx with rfl | hx
      · exact hinside
      · exact h.inside x (.inl hx)
    · exact h.inside x (.inr hx)
  reached := h.reached
  dominated xs x ys hsplit d hd hne := (h.dominated xs x ys hsplit d hd hne).imp_left (List.mem_cons_of_mem _)
  back := h.back

/-- How a search ends: with an order, or at a block that does not exist. What its steps preserve holds then. -/
theorem search_ends {P : List (BlockId × List BlockId) → List BlockId → List BlockId → Prop}
    (finish : ∀ {b stack visited done}, P ((b, []) :: stack) visited done → P stack visited (b :: done))
    (skip : ∀ {b next rest stack visited done}, next ∈ visited → P ((b, next :: rest) :: stack) visited done →
      P ((b, rest) :: stack) visited done)
    (enter : ∀ {b next rest stack visited done}, next ∉ visited → next.index < g.blocks.size →
      P ((b, next :: rest) :: stack) visited done →
      P ((next, g.successors next) :: (b, rest) :: stack) (next :: visited) done) (fuel : Nat) :
    ∀ {stack visited done}, P stack visited done → g.searchWork stack visited < fuel →
      (∃ visited' order, g.search fuel stack visited done = .ok order ∧ P [] visited' order) ∨
      ∃ b next rest stack' visited' done', g.search fuel stack visited done = .error (.unknownBlock next) ∧
        g.blocks.size ≤ next.index ∧ P ((b, next :: rest) :: stack') visited' done' := by
  induction fuel with
  | zero => exact fun _ hwork => absurd hwork (Nat.not_lt_zero _)
  | succ fuel ih =>
    intro stack visited done h hwork
    rcases stack with _ | ⟨⟨b, _ | ⟨next, rest⟩⟩, stack⟩
    · exact .inl ⟨visited, done, rfl, h⟩
    · refine ih (finish h) ?_
      simp only [searchWork, List.map_cons, List.sum_cons] at hwork ⊢
      omega
    · rw [search]
      split
      · rename_i hnext
        refine ih (skip hnext h) ?_
        simp only [searchWork, List.map_cons, List.sum_cons, List.length_cons] at hwork ⊢
        omega
      · rename_i hnext
        by_cases hinside : next.index < g.blocks.size
        · have hblock : g.block next = .ok (g.blocks.getD next.index {}) := by simp [Graph.block, hinside]
          have hwork' := searchWork_enter b rest stack hnext hinside
          have hless : g.searchWork ((next, g.successors next) :: (b, rest) :: stack) (next :: visited) < fuel := by omega
          rw [hblock]
          exact ih (enter hnext hinside h) hless
        · have hblock : g.block next = .error (.unknownBlock next) := by simp [Graph.block, hinside]
          rw [hblock]
          exact .inr ⟨b, next, rest, stack, visited, done, rfl, Nat.not_lt.mp hinside, h⟩

end

/-! ### The order -/

/-- Blocks in an order in which code can be generated. -/
structure Arranged (g : Graph) (order : List BlockId) : Prop where
  once : order.Nodup
  mem_iff : ∀ b, b ∈ order ↔ g.Reached b
  entry : order.head? = some ⟨0⟩
  dominators : ∀ xs b ys, order = xs ++ b :: ys → ∀ d, g.Dominates d b → d ≠ b → d ∈ xs
  predecessors : (∀ b, ¬ TransGen g.Edge b b) → ∀ xs b ys, order = xs ++ b :: ys →
    ∀ a, g.Reached a → g.Edge a b → a ∈ xs

/-- An edge out of a block that control can get to leads to `b`, which does not exist. -/
def Dangling (g : Graph) (b : BlockId) : Prop := ∃ a, g.Reached a ∧ g.Edge a b ∧ g.blocks.size ≤ b.index

/-- How the search for the order ends. -/
theorem reversePostorder_ends (h0 : 0 < g.blocks.size) :
    (∃ visited order, g.reversePostorder = .ok order ∧ g.Covering [] visited order ∧ g.Tracing [] order) ∨
    ∃ b, g.reversePostorder = .error (.unknownBlock b) ∧ g.Dangling b := by
  have hblock : g.block ⟨0⟩ = .ok (g.blocks.getD 0 {}) := by simp [Graph.block, h0]
  have hcovering : g.Covering [(⟨0⟩, g.successors ⟨0⟩)] [⟨0⟩] [] :=
    ⟨by simp, by simp +contextual [Edge], by simp⟩
  have htracing : g.Tracing [(⟨0⟩, g.successors ⟨0⟩)] [] :=
    ⟨.entry, by simp [Edge], by simpa using h0, by simp, by simp, by simp⟩
  have hends := search_ends (g := g) (P := fun stack visited done =>
    g.Covering stack visited done ∧ g.Tracing stack done) (fun h => ⟨h.1.finish, h.2.finish h.1⟩)
    (fun hnext h => ⟨h.1.skip hnext, h.2.skip⟩) (fun _ hinside h => ⟨h.1.enter, h.2.enter hinside⟩) _
    ⟨hcovering, htracing⟩ (Nat.lt_succ_of_le (searchWork_start h0).le)
  rw [reversePostorder, hblock]
  rcases hends with ⟨visited, order, hrun, hend⟩ | ⟨b, next, rest, stack, visited, done, hrun, houtside, -, hend⟩
  · exact .inl ⟨visited, order, hrun, hend⟩
  · exact .inr ⟨next, hrun, b, hend.way.reached b List.mem_cons_self, hend.edge, houtside⟩

theorem arranged_of_ends {order : List BlockId} (hrun : g.reversePostorder = .ok order)
    (ht : g.Tracing [] order) : g.Arranged order := by
  have hnodup := nodup_of_reversePostorder hrun
  have hmem : ∀ b, b ∈ order ↔ g.Reached b := fun b => ⟨ht.reached b, mem_of_reversePostorder hrun⟩
  have hdominators : ∀ xs b ys, order = xs ++ b :: ys → ∀ d, g.Dominates d b → d ≠ b → d ∈ xs :=
    fun xs b ys hsplit d hd hne => (ht.dominated xs b ys hsplit d hd hne).resolve_left (by simp)
  refine ⟨hnodup, hmem, ?_, hdominators, fun acyclic xs b ys hsplit a ha he => ?_⟩
  · cases order with
    | nil => exact absurd ((hmem ⟨0⟩).mpr .refl) (by simp)
    | cons b order =>
      by_contra hfirst
      have hb : (⟨0⟩ : BlockId) ≠ b := fun heq => hfirst (by simp [heq])
      exact absurd (hdominators [] b order rfl ⟨0⟩ (dominates_entry b) hb) (by simp)
  · have hne : a ≠ b := by
      rintro rfl
      exact acyclic a (.single he)
    have hmem_a : a ∈ xs ++ b :: ys := hsplit ▸ (hmem a).mpr ha
    rcases List.mem_append.mp hmem_a with hxs | hys
    · exact hxs
    · -- Otherwise `b` would come again after `a`, or the edge would close a cycle.
      obtain ⟨us, vs, rfl⟩ := List.append_of_mem ((List.mem_cons.mp hys).resolve_left hne)
      have hsplit' : order = (xs ++ b :: us) ++ a :: vs := by simpa using hsplit
      have hlater := (ht.back _ a vs hsplit' b he).resolve_right fun hback => acyclic b (.tail' hback he)
      rw [hsplit', List.nodup_append] at hnodup
      exact absurd rfl (hnodup.2.2 b (by simp) b (List.mem_cons_of_mem _ hlater))

/-- On a graph whose blocks lead to blocks of the graph, cyclic or not, the search ends with the blocks that control
can get to, each after those that dominate it. An edge that leads out of the graph is reported, unless control
cannot get to it. -/
theorem reversePostorder_arranges (g : Graph) (h0 : 0 < g.blocks.size) :
    ((∀ b, ¬ g.Dangling b) → ∃ order, g.reversePostorder = .ok order ∧ g.Arranged order) ∧
    ((∃ b, g.Dangling b) → ∃ b, g.Dangling b ∧ g.reversePostorder = .error (.unknownBlock b)) := by
  rcases reversePostorder_ends h0 with ⟨visited, order, hrun, hc, ht⟩ | ⟨b, hrun, hb⟩
  · refine ⟨fun _ => ⟨order, hrun, arranged_of_ends hrun ht⟩, fun ⟨b, a, ha, he, houtside⟩ => ?_⟩
    have hmem : b ∈ order := mem_of_reversePostorder hrun (ha.tail he)
    exact absurd (ht.inside b (.inr hmem)) (Nat.not_lt.mpr houtside)
  · exact ⟨fun hinside => absurd hb (hinside b), fun _ => ⟨b, hb, hrun⟩⟩

/-- A loop of two blocks, of which the first one also leads out of it. -/
def loopGraph : Graph where
  name := "loop"
  blocks := #[{ successors := [⟨1⟩] }, { successors := [⟨2⟩, ⟨3⟩] }, { successors := [⟨1⟩] }, {}]

theorem reversePostorder_arranges_loop : 0 < loopGraph.blocks.size ∧ (∀ b, ¬ loopGraph.Dangling b) ∧
    loopGraph.reversePostorder = .ok [⟨0⟩, ⟨1⟩, ⟨3⟩, ⟨2⟩] ∧ loopGraph.Arranged [⟨0⟩, ⟨1⟩, ⟨3⟩, ⟨2⟩] := by
  have hinside : ∀ b, ¬ loopGraph.Dangling b := by
    rintro b ⟨⟨a⟩, -, he, houtside⟩
    have ha : a < 4 ∨ loopGraph.successors ⟨a⟩ = [] := by
      refine Nat.lt_or_ge a 4 |>.imp_right fun ha => ?_
      rw [successors, Array.getD_eq_getD_getElem?, Array.getElem?_eq_none ha]
      rfl
    rcases ha with ha | ha
    · have hall : ∀ a < 4, ∀ b ∈ loopGraph.successors ⟨a⟩, b.index < loopGraph.blocks.size := by decide
      exact absurd (hall a ha b he) (Nat.not_lt.mpr houtside)
    · rw [Edge, ha] at he
      cases he
  obtain ⟨order, hrun, horder⟩ := (reversePostorder_arranges loopGraph (by decide)).1 hinside
  have hrun' : loopGraph.reversePostorder = .ok [⟨0⟩, ⟨1⟩, ⟨3⟩, ⟨2⟩] := by rfl
  obtain rfl := Except.ok.inj (hrun.symm.trans hrun')
  exact ⟨by decide, hinside, hrun, horder⟩

end ScriptEngine.Graph
