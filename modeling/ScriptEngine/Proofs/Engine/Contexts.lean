import Mathlib.Data.List.Basic
import Mathlib.Order.Nat
import ScriptEngine.Engine.Basic
import ScriptEngine.Proofs.State

/-!
Compilation contexts whose guards are dropped in any order. A guard knows a depth and nothing else, so dropping it
takes away all contexts from that depth on, whichever they are by then. Still no context outlives all guards: the
guard of a level that is in use was given out when the level was last entered, and is not dropped yet.
-/

namespace ScriptEngine.Engine

open State

/-- What is held for a context that was entered. -/
structure ContextGuard where
  /-- The depth that it leaves. -/
  depth : Nat
  /-- The contexts before it was entered. -/
  outer : ContextStack

/-- What is done with contexts. -/
inductive ContextUse where
  | enter (context : CompileContext)
  /-- Drop one of the guards that are held. -/
  | drop (place : Nat)
deriving DecidableEq

/-- An engine with the guards that are not dropped yet, the last one first. -/
structure Nested where
  engine : Engine
  guards : List ContextGuard := []

/-- A guard that is dropped is not held any more, so each is dropped at most once. -/
def Nested.use (s : Nested) : ContextUse → Nested
  | .enter context =>
    let (depth, contexts) := s.engine.contexts.enter context
    { engine := { s.engine with contexts }, guards := ⟨depth, s.engine.contexts⟩ :: s.guards }
  | .drop place =>
    match s.guards[place]? with
    | some guard =>
      { engine := finalState (leaveContext guard.depth : CompileM Unit) s.engine, guards := s.guards.eraseIdx place }
    | none => s

/-- What a history of uses leads to. The last use comes first. -/
def Nested.after (e : Engine) : List ContextUse → Nested
  | [] => { engine := e }
  | u :: past => (Nested.after e past).use u

/-- Only the guard that was given out last is dropped. -/
def InReverse (past : List ContextUse) : Prop := ∀ place, .drop place ∈ past → place = 0

section

variable {e : Engine} {s : Nested} {past : List ContextUse}

/-- The engine after a guard was dropped. -/
def leftAt (e : Engine) (depth : Nat) : Engine :=
  { e with
    contexts := (e.contexts.leave depth).2
    events :=
      if e.contexts.depth = depth then e.events
      else e.events.push (.failure "compile contexts released out of order" none) }

theorem leaveContext_apply {ε : Type} (depth : Nat) :
    (leaveContext depth : EStateM ε Engine Unit) e = .ok () (e.leftAt depth) := by
  by_cases hdepth : e.contexts.depth = depth <;> simp [leaveContext, leftAt, ContextStack.leave, hdepth]

theorem use_drop {place : Nat} {guard : ContextGuard} (h : s.guards[place]? = some guard) :
    s.use (.drop place) = { engine := s.engine.leftAt guard.depth, guards := s.guards.eraseIdx place } := by
  simp only [Nested.use, h, finalState_ok (leaveContext_apply guard.depth)]

theorem use_drop_none {place : Nat} (h : s.guards[place]? = none) : s.use (.drop place) = s := by
  simp only [Nested.use, h]

/-- Seen from the outermost one, the contexts below the depth stay. -/
theorem frames_leave (c : ContextStack) (depth : Nat) :
    (c.leave depth).2.frames.reverse = c.frames.reverse.take (min c.depth (depth - 1)) := by
  have hlength : c.frames.length - (c.depth - (depth - 1)) = min c.depth (depth - 1) := by
    unfold ContextStack.depth
    omega
  rw [ContextStack.leave, List.reverse_drop, hlength]

theorem depth_leave (c : ContextStack) (depth : Nat) : (c.leave depth).2.depth = min c.depth (depth - 1) := by
  simp only [ContextStack.leave, ContextStack.depth, List.length_drop]
  omega

/-! ### Any order -/

/-- The contexts that were there first are there still, and every level above them has a guard. -/
structure Awaited (e : Engine) (s : Nested) : Prop where
  base : e.contexts.frames <:+ s.engine.contexts.frames
  above : ∀ guard ∈ s.guards, e.contexts.depth < guard.depth
  level : ∀ depth, e.contexts.depth < depth → depth ≤ s.engine.contexts.depth →
    ∃ guard ∈ s.guards, guard.depth = depth

theorem Awaited.enter (h : Awaited e s) (context : CompileContext) : Awaited e (s.use (.enter context)) where
  base := h.base.trans (List.suffix_cons _ _)
  above := by
    have hdepth : e.contexts.depth ≤ s.engine.contexts.depth := h.base.length_le
    rintro guard (_ | ⟨_, hguard⟩)
    · exact Nat.lt_succ_of_le hdepth
    · exact h.above guard hguard
  level depth hlow hhigh := by
    rcases Nat.lt_or_eq_of_le hhigh with hlt | heq
    · obtain ⟨guard, hguard, hdepth⟩ := h.level depth hlow (Nat.le_of_lt_succ hlt)
      exact ⟨guard, List.mem_cons_of_mem _ hguard, hdepth⟩
    · exact ⟨_, List.mem_cons_self, heq.symm⟩

theorem Awaited.drop (h : Awaited e s) (place : Nat) : Awaited e (s.use (.drop place)) := by
  cases hplace : s.guards[place]? with
  | none => rwa [use_drop_none hplace]
  | some guard =>
    have habove : e.contexts.depth < guard.depth := h.above guard (List.mem_of_getElem? hplace)
    rw [use_drop hplace]
    refine ⟨?_, fun other hother => h.above other (List.mem_of_mem_eraseIdx hother), fun depth hlow hhigh => ?_⟩
    · -- What is taken away lies above the contexts that were there first.
      obtain ⟨upper, hupper⟩ := h.base
      have hlength : upper.length + e.contexts.depth = s.engine.contexts.depth := by
        simp [ContextStack.depth, ← hupper]
      refine ⟨upper.drop (s.engine.contexts.depth - (guard.depth - 1)), ?_⟩
      change _ = s.engine.contexts.frames.drop _
      rw [← hupper, List.drop_append_of_le_length (by omega)]
    · -- A level that stays lies below the guard that is dropped, so its own guard is another one.
      have hbelow : depth ≤ min s.engine.contexts.depth (guard.depth - 1) := depth_leave _ _ ▸ hhigh
      obtain ⟨other, hother, hdepth⟩ := h.level depth hlow (by omega)
      refine ⟨other, List.mem_eraseIdx_iff_getElem?.mpr ?_, hdepth⟩
      obtain ⟨k, hk⟩ := List.getElem?_of_mem hother
      refine ⟨k, fun heq => ?_, hk⟩
      have hsame : other = guard := Option.some.inj (hk.symm.trans (heq ▸ hplace))
      rw [hsame] at hdepth
      omega

theorem awaited_after (e : Engine) (past : List ContextUse) : Awaited e (.after e past) := by
  induction past with
  | nil => exact ⟨List.suffix_rfl, nofun, fun depth hlow hhigh => absurd hhigh (Nat.not_le.mpr hlow)⟩
  | cons u past ih =>
    cases u with
    | enter context => exact ih.enter context
    | drop place => exact ih.drop place

/-! ### Reverse order -/

/-- Each guard belongs to the innermost of the contexts that are left when those after it are dropped. -/
inductive Matched : ContextStack → List ContextGuard → Prop where
  | none (c : ContextStack) : Matched c []
  | enter {c : ContextStack} {guards : List ContextGuard} (context : CompileContext) : Matched c guards →
    Matched (c.enter context).2 (⟨(c.enter context).1, c⟩ :: guards)

/-- The guard given out last restores the contexts before it, and there is nothing to report. -/
theorem Matched.leftAt {guard : ContextGuard} {guards : List ContextGuard}
    (h : Matched e.contexts (guard :: guards)) : e.leftAt guard.depth = { e with contexts := guard.outer } := by
  obtain ⟨context, hcontexts, hdepth⟩ : ∃ context, e.contexts.frames = context :: guard.outer.frames ∧
      guard.depth = guard.outer.depth + 1 := by
    generalize e.contexts = contexts at h
    cases h with
    | enter context _ => exact ⟨context, rfl, rfl⟩
  have hlength : e.contexts.depth = guard.depth := by
    rw [ContextStack.depth, hcontexts, hdepth, List.length_cons, ContextStack.depth]
  have hleave : (e.contexts.leave guard.depth).2 = guard.outer := by
    rw [ContextStack.leave, hlength, hcontexts, hdepth]
    simp
  rw [Engine.leftAt, if_pos hlength, hleave]

theorem Matched.outer {c : ContextStack} {guard : ContextGuard} {guards : List ContextGuard}
    (h : Matched c (guard :: guards)) : Matched guard.outer guards := by
  cases h with
  | enter _ h => exact h

theorem matched_after (h : InReverse past) :
    Matched (Nested.after e past).engine.contexts (Nested.after e past).guards ∧
      (Nested.after e past).engine.events = e.events := by
  induction past with
  | nil => exact ⟨.none _, rfl⟩
  | cons u past ih =>
    obtain ⟨hmatched, hevents⟩ := ih fun place hplace => h place (List.mem_cons_of_mem _ hplace)
    cases u with
    | enter context => exact ⟨hmatched.enter context, hevents⟩
    | drop place =>
      obtain rfl : place = 0 := h place List.mem_cons_self
      cases hguards : (Nested.after e past).guards with
      | nil =>
        rw [Nested.after, use_drop_none (by simp [hguards])]
        exact ⟨hmatched, hevents⟩
      | cons guard rest =>
        rw [hguards] at hmatched
        rw [Nested.after, use_drop (by rw [hguards]; rfl), hguards, hmatched.leftAt]
        exact ⟨hmatched.outer, hevents⟩

/-! ### Whole histories -/

/-- What holds of contexts after a history. -/
structure ContextsKeep (e : Engine) (past : List ContextUse) (s : Nested) : Prop where
  /-- Dropping a guard leaves the outer contexts as they are and touches nothing else; it is reported unless the guard
  has the depth that the contexts have. -/
  dropped : ∀ guard ∈ s.guards, ∃ e', (leaveContext guard.depth : CompileM Unit) s.engine = .ok () e' ∧
    e'.contexts.frames.reverse =
      s.engine.contexts.frames.reverse.take (min s.engine.contexts.depth (guard.depth - 1)) ∧
    e' = { s.engine with
      contexts := e'.contexts
      events :=
        if s.engine.contexts.depth = guard.depth then s.engine.events
        else s.engine.events.push (.failure "compile contexts released out of order" none) }
  /-- In reverse order, each guard restores the contexts before it, and nothing is ever reported. -/
  restored : InReverse past → s.engine.events = e.events ∧ ∀ guard ∈ s.guards.head?,
    (leaveContext guard.depth : CompileM Unit) s.engine = .ok () { s.engine with contexts := guard.outer }
  /-- When all guards are dropped, the contexts are those of the beginning: none in a new engine. -/
  finished : s.guards = [] → s.engine.contexts = e.contexts

/-- Whatever the order in which guards are dropped, none of them takes away an outer context, and together they leave
nothing behind. -/
theorem contexts_keep (e : Engine) (past : List ContextUse) : ContextsKeep e past (.after e past) := by
  constructor
  case dropped => exact fun guard _ => ⟨_, leaveContext_apply _, frames_leave _ _, rfl⟩
  case restored =>
    intro hreverse
    obtain ⟨hmatched, hevents⟩ := matched_after hreverse
    refine ⟨hevents, fun guard hguard => ?_⟩
    rw [List.eq_cons_of_mem_head? hguard] at hmatched
    rw [leaveContext_apply, hmatched.leftAt]
  case finished =>
    intro hguards
    have hawaited := awaited_after e past
    refine congrArg ContextStack.mk (hawaited.base.eq_of_length_le ?_).symm
    by_contra hlonger
    obtain ⟨guard, hguard, -⟩ := hawaited.level _ (Nat.not_le.mp hlonger) le_rfl
    rw [hguards] at hguard
    cases hguard

/-- Two contexts of which the outer one is left first: the inner one goes too, a third one takes over its depth, and
the inner guard takes that away. -/
example : let unit : CompileContext := ⟨"unit", .stub⟩
    let past := [.enter unit, .enter unit, .drop 1, .enter unit, .enter unit]
    (Nested.after {} past).engine.contexts.depth = 2 ∧
      (Nested.after {} (.drop 2 :: past)).engine.contexts.depth = 1 ∧
      (Nested.after {} (.drop 2 :: past)).engine.events.size = 1 := by
  decide

end

end ScriptEngine.Engine
