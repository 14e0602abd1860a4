import Mathlib
import ScriptEngine.Graph.Order
import ScriptEngine.Proofs.Graph.Dominance

/-!
The order of blocks for code generation. In a graph without cycles the depth-first search lists
every block once, and before all blocks that it leads to; so a block comes after the blocks that
dominate it.
-/

namespace ScriptEngine.Graph

open Relation

variable {g : Graph}

/-- Every block leads only to blocks that are listed after it. -/
inductive Sorted (g : Graph) : List BlockId → Prop where
  | nil : Sorted g []
  | cons {b : BlockId} {rest : List BlockId} : (∀ s, g.Edge b s → s ∈ rest) → Sorted g rest →
    Sorted g (b :: rest)

theorem Sorted.of_append {xs ys : List BlockId} (h : g.Sorted (xs ++ ys)) : g.Sorted ys := by
  induction xs with
  | nil => exact h
  | cons b rest ih =>
    cases h with
    | cons _ hrest => exact ih hrest

/-- What a listed block leads to is listed after it. -/
theorem Sorted.after {b s : BlockId} {xs ys : List BlockId} (h : g.Sorted (xs ++ b :: ys))
    (hs : TransGen g.Edge b s) : s ∈ ys := by
  induction hs with
  | single he =>
    cases h.of_append with
    | cons hnext _ => exact hnext _ he
  | @tail t _ _ he ih =>
    obtain ⟨us, vs, rfl⟩ := List.append_of_mem ih
    have hlater : g.Sorted ((xs ++ b :: us) ++ t :: vs) := by simpa using h
    cases hlater.of_append with
    | cons hnext _ => simp [hnext _ he]

/-! ### The search -/

/-- Where a search stands: the blocks on the stack lead to each other from below, and a block is
done only after all blocks that it leads to. -/
structure Searching (g : Graph) (stack : List (BlockId × List BlockId))
    (visited done : List BlockId) : Prop where
  nodup : (stack.map (·.1) ++ done).Nodup
  known : ∀ b, b ∈ visited ↔ b ∈ stack.map (·.1) ∨ b ∈ done
  inside : ∀ b ∈ visited, b.index < g.blocks.size
  leads : (stack.map (·.1)).Pairwise fun upper lower => TransGen g.Edge lower upper
  pending : ∀ frame ∈ stack, ∀ s ∈ frame.2, g.Edge frame.1 s
  seen : ∀ frame ∈ stack, ∀ s, g.Edge frame.1 s → s ∈ frame.2 ∨ s ∈ visited
  sorted : g.Sorted done

section

variable {b next : BlockId} {rest : List BlockId} {stack : List (BlockId × List BlockId)}
  {visited done : List BlockId}

theorem Searching.finish (h : g.Searching ((b, []) :: stack) visited done)
    (acyclic : ∀ b, ¬ TransGen g.Edge b b) : g.Searching stack visited (b :: done) where
  nodup := by
    refine (List.Perm.nodup_iff ?_).mp h.nodup
    exact List.perm_middle.symm
  known x := by
    rw [h.known]
    simp only [List.map_cons, List.mem_cons]
    tauto
  inside := h.inside
  leads := h.leads.of_cons
  pending frame hf := h.pending frame (List.mem_cons_of_mem _ hf)
  seen frame hf := h.seen frame (List.mem_cons_of_mem _ hf)
  sorted := by
    refine .cons (fun s hs => ?_) h.sorted
    have hvisited := (h.seen (b, []) (by simp) s hs).resolve_left (by simp)
    rcases (h.known s).mp hvisited with hstack | hdone
    · -- A block on the stack that `b` leads to would be on a cycle.
      exfalso
      rcases List.mem_cons.mp hstack with rfl | hlower
      · exact acyclic _ (.single hs)
      · exact acyclic s (((List.pairwise_cons.mp h.leads).1 s hlower).tail hs)
    · exact hdone

theorem Searching.skip (h : g.Searching ((b, next :: rest) :: stack) visited done)
    (hnext : next ∈ visited) : g.Searching ((b, rest) :: stack) visited done where
  nodup := h.nodup
  known := h.known
  inside := h.inside
  leads := h.leads
  pending := by
    rintro frame (_ | ⟨_, hf⟩) s hs
    · exact h.pending (b, next :: rest) (by simp) s (List.mem_cons_of_mem _ hs)
    · exact h.pending frame (List.mem_cons_of_mem _ hf) s hs
  seen := by
    rintro frame (_ | ⟨_, hf⟩) s hs
    · rcases h.seen (b, next :: rest) (by simp) s hs with hmem | hmem
      · rcases List.mem_cons.mp hmem with rfl | hmem
        · exact .inr hnext
        · exact .inl hmem
      · exact .inr hmem
    · exact h.seen frame (List.mem_cons_of_mem _ hf) s hs
  sorted := h.sorted

theorem Searching.enter (h : g.Searching ((b, next :: rest) :: stack) visited done)
    (hnext : next ∉ visited) (hinside : next.index < g.blocks.size) :
    g.Searching ((next, g.successors next) :: (b, rest) :: stack) (next :: visited) done where
  nodup := by
    refine List.nodup_cons.mpr ⟨fun hmem => hnext ?_, h.nodup⟩
    rw [h.known]
    exact List.mem_append.mp hmem
  known x := by
    rw [List.mem_cons, h.known]
    simp only [List.map_cons, List.mem_cons]
    tauto
  inside x hx := by
    rcases List.mem_cons.mp hx with rfl | hx
    · exact hinside
    · exact h.inside x hx
  leads := by
    have he : g.Edge b next := h.pending (b, next :: rest) (by simp) next (by simp)
    refine List.pairwise_cons.mpr ⟨fun lower hlower => ?_, h.leads⟩
    rcases List.mem_cons.mp hlower with rfl | hlower
    · exact .single he
    · exact ((List.pairwise_cons.mp h.leads).1 lower hlower).tail he
  pending := by
    rintro frame (_ | ⟨_, _ | ⟨_, hf⟩⟩) s hs
    · exact hs
    · exact h.pending (b, next :: rest) (by simp) s (List.mem_cons_of_mem _ hs)
    · exact h.pending frame (List.mem_cons_of_mem _ hf) s hs
  seen := by
    rintro frame (_ | ⟨_, _ | ⟨_, hf⟩⟩) s hs
    · exact .inl hs
    · rcases h.seen (b, next :: rest) (by simp) s hs with hmem | hmem
      · rcases List.mem_cons.mp hmem with rfl | hmem
        · exact .inr (by simp)
        · exact .inl hmem
      · exact .inr (List.mem_cons_of_mem _ hmem)
    · exact (h.seen frame (List.mem_cons_of_mem _ hf) s hs).imp_right (List.mem_cons_of_mem _)
  sorted := h.sorted

/-- Steps that a search still takes: one for each edge and each block that it has not finished. -/
def searchWork (g : Graph) (stack : List (BlockId × List BlockId)) (visited : List BlockId) : Nat :=
  (stack.map fun frame => frame.2.length + 1).sum +
    ((g.blockIds.filter (· ∉ visited)).map fun b => (g.successors b).length + 1).sum

theorem searchWork_enter (b : BlockId) (rest : List BlockId)
    (stack : List (BlockId × List BlockId)) (hnext : next ∉ visited) (hinside : next.index < g.blocks.size) :
    g.searchWork ((b, next :: rest) :: stack) visited =
      g.searchWork ((next, g.successors next) :: (b, rest) :: stack) (next :: visited) + 1 := by
  have hmem : next ∈ g.blockIds.filter (· ∉ visited) := by
    simp only [List.mem_filter, Graph.blockIds, List.mem_map, List.mem_range]
    exact ⟨⟨next.index, hinside, rfl⟩, by simpa using hnext⟩
  have hnodup : (g.blockIds.filter (· ∉ visited)).Nodup := by
    refine List.Nodup.filter _ (List.nodup_range.map ?_)
    intro x y hxy
    exact BlockId.mk.inj hxy
  have herase : (g.blockIds.filter (· ∉ visited)).erase next =
      g.blockIds.filter (· ∉ next :: visited) := by
    rw [hnodup.erase_eq_filter, List.filter_filter]
    refine List.filter_congr fun x _ => ?_
    by_cases hx : x = next <;> simp [hx]
  have hsum := (((List.perm_cons_erase hmem).map fun b => (g.successors b).length + 1)).sum_eq
  rw [herase] at hsum
  simp only [searchWork, hsum, List.map_cons, List.sum_cons, List.length_cons]
  omega

/-- Steps of a whole search. -/
theorem searchWork_start (h0 : 0 < g.blocks.size) :
    g.searchWork [(⟨0⟩, g.successors ⟨0⟩)] [⟨0⟩] =
      g.blocks.size + g.blocks.foldl (fun n b => n + b.successors.length) 0 := by
  have hfold : ∀ (blocks : List Block) (n : Nat), blocks.length + blocks.foldl
      (fun n b => n + b.successors.length) n =
        n + (blocks.map fun b => b.successors.length + 1).sum := by
    intro blocks
    induction blocks with
    | nil => simp
    | cons b rest ih =>
      intro n
      have hrest := ih (n + b.successors.length)
      simp only [List.foldl_cons, List.map_cons, List.sum_cons, List.length_cons]
      omega
  have hall : g.blockIds.map (fun b => (g.successors b).length + 1) =
      g.blocks.toList.map fun b => b.successors.length + 1 := by
    refine List.ext_getElem (by simp [Graph.blockIds]) fun k hk hk' => ?_
    simp only [List.length_map, Array.length_toList] at hk'
    simp [Graph.blockIds, successors, hk']
  have hids : (g.blockIds.filter (· ∉ [(⟨0⟩ : BlockId)])) = g.blockIds.tail := by
    obtain ⟨n, hn⟩ : ∃ n, g.blocks.size = n + 1 := ⟨g.blocks.size - 1, by omega⟩
    simp only [Graph.blockIds, hn, List.range_succ_eq_map, List.map_cons, List.tail_cons]
    rw [List.filter_cons_of_neg (by simp), List.filter_eq_self]
    intro x hx
    simp only [List.mem_map] at hx
    obtain ⟨_, ⟨k, -, rfl⟩, rfl⟩ := hx
    simp
  have hcons : g.blockIds = ⟨0⟩ :: g.blockIds.tail := by
    obtain ⟨n, hn⟩ : ∃ n, g.blocks.size = n + 1 := ⟨g.blocks.size - 1, by omega⟩
    simp [Graph.blockIds, hn, List.range_succ_eq_map]
  have hsum := hfold g.blocks.toList 0
  rw [Array.length_toList, Array.foldl_toList, ← hall, hcons, List.map_cons, List.sum_cons] at hsum
  rw [searchWork, hids]
  simp only [List.map_cons, List.map_nil, List.sum_cons, List.sum_nil]
  omega

end

/-- Blocks in an order of code generation. -/
structure Ordered (g : Graph) (order : List BlockId) : Prop where
  nodup : order.Nodup
  inside : ∀ b ∈ order, b.index < g.blocks.size
  sorted : g.Sorted order

theorem search_ok (inside : ∀ a b, g.Edge a b → b.index < g.blocks.size)
    (acyclic : ∀ b, ¬ TransGen g.Edge b b) :
    ∀ (fuel : Nat) (stack : List (BlockId × List BlockId)) (visited done : List BlockId),
      g.Searching stack visited done → g.searchWork stack visited < fuel →
      ∃ order, g.search fuel stack visited done = .ok order ∧ g.Ordered order ∧
        ∀ b ∈ visited, b ∈ order := by
  intro fuel
  induction fuel with
  | zero =>
    intro _ _ _ _ hwork
    omega
  | succ fuel ih =>
    intro stack visited done h hwork
    rcases stack with _ | ⟨⟨b, _ | ⟨next, rest⟩⟩, stack⟩
    · refine ⟨done, rfl, ⟨h.nodup, fun b hb => ?_, h.sorted⟩, fun b hb => ?_⟩
      · exact h.inside b ((h.known b).mpr (.inr hb))
      · exact ((h.known b).mp hb).resolve_left (by simp)
    · refine ih stack visited (b :: done) (h.finish acyclic) ?_
      simp only [searchWork, List.map_cons, List.sum_cons] at hwork ⊢
      omega
    · by_cases hnext : next ∈ visited
      · obtain ⟨order, hsearch, horder⟩ := ih ((b, rest) :: stack) visited done (h.skip hnext) (by
          simp only [searchWork, List.map_cons, List.sum_cons, List.length_cons] at hwork ⊢
          omega)
        refine ⟨order, ?_, horder⟩
        rw [search, if_pos hnext]
        exact hsearch
      · have hinside := inside b next (h.pending (b, next :: rest) (by simp) next (by simp))
        have hwork' := searchWork_enter b rest stack hnext hinside
        obtain ⟨order, hsearch, hordered, hall⟩ := ih _ _ done (h.enter hnext hinside) (by omega)
        refine ⟨order, ?_, hordered, fun x hx => hall x (List.mem_cons_of_mem _ hx)⟩
        have hblock : g.block next = .ok (g.blocks.getD next.index {}) := by
          simp [Graph.block, hinside]
        rw [search, if_neg hnext, hblock]
        exact hsearch

/-- In a graph without cycles, every block is listed once, before the blocks that it leads to. -/
theorem reversePostorder_ok (hg : g.StrictSSA) : ∃ order, g.reversePostorder = .ok order ∧
    g.Ordered order ∧ ∀ b : BlockId, b.index < g.blocks.size → b ∈ order := by
  have hblock : g.block ⟨0⟩ = .ok (g.blocks.getD 0 {}) := by simp [Graph.block, hg.entry]
  have hstart : g.Searching [(⟨0⟩, g.successors ⟨0⟩)] [⟨0⟩] [] :=
    ⟨by simp, by simp, by simpa using hg.entry, by simp, by simp [Edge], by simp +contextual [Edge], .nil⟩
  have hwork := searchWork_start hg.entry
  obtain ⟨order, hsearch, hordered, hentry⟩ := search_ok (fun a b he => (hg.inside a b he).2)
    hg.acyclic _ _ _ _ hstart (Nat.lt_succ_of_le hwork.le)
  refine ⟨order, ?_, hordered, fun b hb => ?_⟩
  · rw [reversePostorder, hblock]
    exact hsearch
  · obtain ⟨xs, ys, hsplit⟩ := List.append_of_mem (hentry ⟨0⟩ (by simp))
    rcases (reflTransGen_iff_eq_or_transGen.mp (hg.reached b hb)) with rfl | hway
    · simp [hsplit]
    · have := (hsplit ▸ hordered.sorted).after hway
      simp [hsplit, this]

/-- On the way to a block are all blocks that dominate it. -/
theorem Dominates.leads {d b : BlockId} (h : g.Dominates d b) (hb : ReflTransGen g.Edge ⟨0⟩ b) :
    ReflTransGen g.Edge d b := by
  have general : ∀ x, ReflTransGen g.Edge ⟨0⟩ x → g.Avoids d x ∨ ReflTransGen g.Edge d x := by
    intro x hx
    induction hx with
    | refl =>
      by_cases hd : (⟨0⟩ : BlockId) = d
      · exact .inr (hd ▸ .refl)
      · exact .inl (.entry hd)
    | @tail y z _ he ih =>
      by_cases hd : z = d
      · exact .inr (hd ▸ .refl)
      · exact ih.imp (fun hy => hy.step he hd) fun hy => hy.tail he
  exact (general b hb).resolve_left h

/-- A block comes after the blocks that dominate it. -/
theorem Ordered.dominator_before {order xs ys : List BlockId} {d b : BlockId}
    (h : g.Ordered order) (hsplit : order = xs ++ b :: ys) (hd : d ∈ order) (hne : d ≠ b)
    (hdom : g.Dominates d b) (hb : ReflTransGen g.Edge ⟨0⟩ b) : d ∈ xs := by
  subst hsplit
  have hway : TransGen g.Edge d b :=
    (reflTransGen_iff_eq_or_transGen.mp (hdom.leads hb)).resolve_left fun he => hne he.symm
  rcases List.mem_append.mp hd with hd | hd
  · exact hd
  · -- Otherwise `b` would be listed a second time.
    obtain ⟨us, vs, rfl⟩ := List.append_of_mem ((List.mem_cons.mp hd).resolve_left hne)
    have hsorted : g.Sorted ((xs ++ b :: us) ++ d :: vs) := by simpa using h.sorted
    have hagain := hsorted.after hway
    have hnodup := h.nodup
    rw [List.nodup_append] at hnodup
    exact absurd (by simp [hagain]) (List.nodup_cons.mp hnodup.2.1).1

end ScriptEngine.Graph
