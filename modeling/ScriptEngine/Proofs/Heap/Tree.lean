import Mathlib.Data.List.Basic
import Mathlib.Data.List.Induction
import ScriptEngine.Shape

/-!
The transition tree. Every shape is reached from at most one other, by one key, and counts the keys
on its way from a root; so a shape stands for one root and one sequence of keys.
-/

namespace ScriptEngine.Transitions

variable {t : Transitions} {root root' shape shape' key key' child : Word} {keys keys' : List Word}

/-- Keys on the way from one shape to another. -/
inductive Path (t : Transitions) (root : Word) : List Word → Word → Prop where
  | nil : Path t root [] root
  | snoc {keys : List Word} {shape key child : Word} : Path t root keys shape →
      t.child? shape key = some child → Path t root (keys ++ [key]) child

/-- Shapes have one parent, and the number of keys that their depth says. -/
structure Tree (t : Transitions) : Prop where
  parent : ∀ {shape shape' key key' child}, t.child? shape key = some child →
    t.child? shape' key' = some child → shape = shape' ∧ key = key'
  count : ∀ {shape key child}, t.child? shape key = some child →
    t.keyCount child = t.keyCount shape + 1
  orphan : ∀ {child}, (∀ shape key, t.child? shape key ≠ some child) → t.keyCount child = 0

theorem child?_insert (t : Transitions) (shape key child shape' key' : Word) :
    (t.insert shape key child).child? shape' key' =
      if shape = shape' ∧ key = key' then some child else t.child? shape' key' := by
  unfold child? insert
  simp only [Std.TreeMap.getD_insert, Std.compare_eq_iff_eq]
  by_cases hs : shape = shape'
  · subst hs
    rw [if_pos rfl, Std.TreeMap.getElem?_insert]
    simp
  · simp [hs]

theorem keyCount_insert (t : Transitions) (shape key child shape' : Word) :
    (t.insert shape key child).keyCount shape' =
      if child = shape' then t.keyCount shape + 1 else t.keyCount shape' := by
  simp [keyCount, insert, Std.TreeMap.getD_insert]

theorem Path.keyCount_eq (tree : t.Tree) (path : t.Path root keys shape) :
    t.keyCount shape = t.keyCount root + keys.length := by
  induction path with
  | nil => simp
  | snoc _ step ih =>
    rw [tree.count step, ih, List.length_append]
    rfl

theorem Path.last (path : t.Path root (keys ++ [key]) child) :
    ∃ shape, t.Path root keys shape ∧ t.child? shape key = some child := by
  generalize hall : keys ++ [key] = all at path
  cases path with
  | nil => simp at hall
  | snoc before step =>
    obtain ⟨rfl, rfl⟩ := List.append_inj' hall rfl |>.imp id fun h => by simpa using h
    exact ⟨_, before, step⟩

/-- A shape tells the root and the keys of the paths that lead to it. -/
theorem Path.source_eq (tree : t.Tree) (hroot : t.keyCount root = 0) (hroot' : t.keyCount root' = 0)
    (path : t.Path root keys shape) (path' : t.Path root' keys' shape) :
    root = root' ∧ keys = keys' := by
  have hlength : keys.length = keys'.length := by
    have hcount := path.keyCount_eq tree
    have hcount' := path'.keyCount_eq tree
    omega
  induction path generalizing keys' with
  | nil =>
    obtain rfl := List.eq_nil_of_length_eq_zero hlength.symm
    generalize hall : ([] : List Word) = all at path'
    cases path' with
    | nil => exact ⟨rfl, rfl⟩
    | snoc _ _ => simp at hall
  | snoc before step ih =>
    rcases List.eq_nil_or_concat keys' with rfl | ⟨keys', key', rfl⟩
    · simp at hlength
    · rw [List.concat_eq_append] at path' hlength ⊢
      obtain ⟨middle, before', step'⟩ := path'.last
      obtain ⟨rfl, rfl⟩ := tree.parent step step'
      obtain ⟨rfl, rfl⟩ := ih before' (by simpa using hlength)
      exact ⟨rfl, rfl⟩

/-- A new edge leaves the old paths as they are. -/
theorem Path.insert (path : t.Path root keys shape) {source key child : Word}
    (free : t.child? source key = none) : (t.insert source key child).Path root keys shape := by
  induction path with
  | nil => exact .nil
  | snoc _ step ih =>
    refine .snoc ih ?_
    rw [child?_insert, if_neg]
    · exact step
    · rintro ⟨rfl, rfl⟩
      rw [free] at step
      cases step

/-- A shape that was not in the tree becomes a leaf of it. -/
theorem Tree.insert (tree : t.Tree) (free : t.child? shape key = none)
    (fresh : ∀ s k, t.child? s k ≠ some child) (unused : ∀ k, t.child? child k = none)
    (other : shape ≠ child) :
    (t.insert shape key child).Tree := by
  constructor
  · intro s s' k k' c hc hc'
    rw [child?_insert] at hc hc'
    split at hc <;> split at hc'
    · exact ⟨(‹shape = s ∧ _›).1.symm.trans (‹shape = s' ∧ _›).1,
        (‹_ ∧ key = k›).2.symm.trans (‹_ ∧ key = k'›).2⟩
    · cases hc
      exact absurd hc' (fresh s' k')
    · cases hc'
      exact absurd hc (fresh s k)
    · exact tree.parent hc hc'
  · intro s k c hc
    rw [child?_insert] at hc
    rw [keyCount_insert, keyCount_insert]
    split at hc
    · obtain ⟨rfl, rfl⟩ := ‹shape = s ∧ key = k›
      cases hc
      rw [if_pos rfl, if_neg other.symm]
    · have hne : child ≠ c := by
        rintro rfl
        exact fresh s k hc
      have hne' : child ≠ s := by
        rintro rfl
        rw [unused k] at hc
        cases hc
      rw [if_neg hne, if_neg hne']
      exact tree.count hc
  · intro c hc
    have hne : child ≠ c := by
      rintro rfl
      apply hc shape key
      rw [child?_insert, if_pos ⟨rfl, rfl⟩]
    rw [keyCount_insert, if_neg hne]
    apply tree.orphan
    intro s k hold
    apply hc s k
    rw [child?_insert, if_neg]
    · exact hold
    · rintro ⟨rfl, rfl⟩
      rw [free] at hold
      cases hold

theorem tree_empty : ({} : Transitions).Tree := by
  constructor <;> simp [child?, keyCount]

end ScriptEngine.Transitions
