import Mathlib.Order.Basic
import Mathlib.Data.List.Basic
import Mathlib.Order.Nat
import ScriptEngine.Scope

/-!
Scopes over a whole history of uses. A scope is open from when it is entered until it is left, and only
the one entered last of those open can be left; ids say in which order scopes were entered. A pointer
belongs to the innermost scope if that is a temporary one, and is recorded as long as the scope is open;
all other pointers stay recorded.
-/

namespace ScriptEngine.Scopes

/-- What is done with scopes. -/
inductive Use where
  | enter (kind : ScopeKind)
  | root (value : Word)
  | leave (id : Nat)
deriving DecidableEq

/-- Scopes after a use. One that fails changes nothing. -/
def use (s : Scopes) : Use → Scopes
  | .enter kind => (s.enter kind).2
  | .root value => s.root value
  | .leave id =>
    match s.leave id with
    | .ok s' => s'
    | .error _ => s

/-- The scopes that a history leads to. The last use comes first. -/
def after : List Use → Scopes
  | [] => {}
  | u :: past => (after past).use u

/-- All pointers that are recorded. -/
def roots (s : Scopes) : List Word := s.persistent ++ s.frames.flatMap (·.roots)

/-- The temporary scope that a pointer rooted now belongs to. -/
def home? (s : Scopes) : Option Nat :=
  match s.frames with
  | frame :: _ => if frame.kind = .temporary then some frame.id else none
  | [] => none

/-- A scope that was entered at some time. -/
inductive Entered : List Use → Nat → ScopeKind → Prop where
  | now (past : List Use) (kind : ScopeKind) : Entered (.enter kind :: past) ((after past).enter kind).1 kind
  | before {past : List Use} {id : Nat} {kind : ScopeKind} (u : Use) :
    Entered past id kind → Entered (u :: past) id kind

/-- A scope that was entered, and not left since. -/
inductive Open : List Use → Nat → ScopeKind → Prop where
  | enter (past : List Use) (kind : ScopeKind) : Open (.enter kind :: past) ((after past).enter kind).1 kind
  | stay {past : List Use} {id : Nat} {kind : ScopeKind} (u : Use) : Open past id kind →
    (u = .leave id → ∀ s, (after past).leave id ≠ .ok s) → Open (u :: past) id kind

/-- The scope entered last of those that are open. -/
structure Innermost (past : List Use) (id : Nat) (kind : ScopeKind) : Prop where
  isOpen : Open past id kind
  last : ∀ id' kind', Open past id' kind' → id' ≤ id

/-- Pointers rooted in the past, the last one first, each with the temporary scope it belonged to. -/
def rooted : List Use → List (Word × Option Nat)
  | .root value :: past =>
    if value.isSmi then rooted past else (value, (after past).home?) :: rooted past
  | _ :: past => rooted past
  | [] => []

/-- A pointer belongs to a scope that is open, or to none. -/
def Held (past : List Use) (r : Word × Option Nat) : Prop := ∀ id, r.2 = some id → ∃ kind, Open past id kind

open Classical in
/-- The pointers rooted in the past whose scope was not left since, or that belonged to none. -/
noncomputable def recorded (past : List Use) : List (Word × Option Nat) := (rooted past).filter fun r => Held past r

/-- What a history says about the scopes that it leads to. -/
structure Tells (past : List Use) (s : Scopes) : Prop where
  ids : s.frames.Pairwise fun inner outer => outer.id < inner.id
  entered : ∀ {id kind}, Entered past id kind → id < s.nextId
  isOpen : ∀ {id kind}, Open past id kind ↔ ∃ frame ∈ s.frames, frame.id = id ∧ frame.kind = kind
  persistent : s.persistent = ((rooted past).filter (·.2 == none)).map (·.1)
  roots : ∀ frame ∈ s.frames, frame.roots = ((rooted past).filter (·.2 == some frame.id)).map (·.1)
  homes : ∀ r ∈ rooted past, ∀ id, r.2 = some id → id < s.nextId

section

variable {past : List Use} {s : Scopes} {id : Nat} {kind : ScopeKind}

theorem Open.entered (h : Open past id kind) : Entered past id kind := by
  induction h with
  | enter past kind => exact .now past kind
  | stay u _ _ ih => exact .before u ih

theorem leave_eq_ok {s' : Scopes} : s.leave id = .ok s' ↔
    ∃ frame, s.frames = frame :: s'.frames ∧ frame.id = id ∧ s' = { s with frames := s'.frames } := by
  unfold leave
  cases hframes : s.frames with
  | nil => simp
  | cons frame outer =>
    by_cases hid : frame.id = id
    · simp only [if_pos hid, Except.ok.injEq]
      constructor
      · rintro rfl
        exact ⟨frame, rfl, hid, rfl⟩
      · rintro ⟨frame', heq, -, hs'⟩
        obtain ⟨-, houter⟩ := List.cons.inj heq
        rw [hs', ← houter]
    · simp only [if_neg hid, reduceCtorEq, false_iff, not_exists, not_and]
      rintro frame' heq hid'
      exact absurd ((List.cons.inj heq).1 ▸ hid') hid

/-! ### One use -/

theorem Tells.start : Tells [] {} where
  ids := .nil
  entered := nofun
  isOpen := ⟨nofun, nofun⟩
  persistent := rfl
  roots := nofun
  homes := nofun

/-- A scope that is left now was the innermost one. -/
theorem Tells.head (h : Tells past s) {frame : ScopeFrame} {outer : List ScopeFrame}
    (hframes : s.frames = frame :: outer) : Innermost past frame.id frame.kind where
  isOpen := h.isOpen.mpr ⟨frame, by simp [hframes], rfl, rfl⟩
  last id' kind' hopen := by
    obtain ⟨frame', hmem, rfl, -⟩ := h.isOpen.mp hopen
    have hids := h.ids
    rw [hframes, List.pairwise_cons] at hids
    rw [hframes] at hmem
    rcases List.mem_cons.mp hmem with rfl | hmem
    · exact le_rfl
    · exact (hids.1 _ hmem).le

theorem Tells.innermost_iff (h : Tells past s) :
    Innermost past id kind ↔ ∃ frame outer, s.frames = frame :: outer ∧ frame.id = id ∧ frame.kind = kind := by
  constructor
  · intro hin
    obtain ⟨frame, hmem, hid, hkind⟩ := h.isOpen.mp hin.isOpen
    cases hframes : s.frames with
    | nil => simp [hframes] at hmem
    | cons first outer =>
      have hlast := hin.last _ _ (h.head hframes).isOpen
      have hids := h.ids
      rw [hframes, List.pairwise_cons] at hids
      rw [hframes] at hmem
      rcases List.mem_cons.mp hmem with rfl | hmem
      · exact ⟨frame, outer, rfl, hid, hkind⟩
      · have := hids.1 _ hmem
        omega
  · rintro ⟨frame, outer, hframes, rfl, rfl⟩
    exact h.head hframes

theorem Tells.leave_iff (h : Tells past s) :
    (∃ s', s.leave id = .ok s') ↔ ∃ kind, Innermost past id kind := by
  constructor
  · rintro ⟨s', hleave⟩
    obtain ⟨frame, hframes, rfl, -⟩ := leave_eq_ok.mp hleave
    exact ⟨_, h.head hframes⟩
  · rintro ⟨kind, hin⟩
    obtain ⟨frame, outer, hframes, hid, -⟩ := h.innermost_iff.mp hin
    exact ⟨{ s with frames := outer }, leave_eq_ok.mpr ⟨frame, hframes, hid, rfl⟩⟩

theorem Tells.home_iff (h : Tells past s) : s.home? = some id ↔ Innermost past id .temporary := by
  rw [h.innermost_iff, home?]
  cases hframes : s.frames with
  | nil => simp
  | cons frame outer =>
    by_cases hkind : frame.kind = .temporary <;> simp [hkind]

/-- Pointers that belong to a scope were rooted when it had been entered. -/
theorem Tells.none_of_new (h : Tells past s) : (rooted past).filter (·.2 == some s.nextId) = [] := by
  rw [List.filter_eq_nil_iff]
  intro r hr
  simp only [beq_iff_eq]
  intro hid
  exact absurd (h.homes r hr _ hid) (lt_irrefl _)

theorem Tells.enter (h : Tells past (after past)) (kind : ScopeKind) :
    Tells (.enter kind :: past) (after (.enter kind :: past)) where
  ids := List.pairwise_cons.mpr ⟨fun frame hframe => h.entered (h.isOpen.mpr ⟨frame, hframe, rfl, rfl⟩).entered, h.ids⟩
  entered := by
    intro id kind' hid
    cases hid with
    | now => exact Nat.lt_succ_self _
    | before _ hid => exact (h.entered hid).trans (Nat.lt_succ_self _)
  isOpen := by
    intro id kind'
    constructor
    · rintro (_ | ⟨_, hopen, -⟩)
      · exact ⟨_, List.mem_cons_self, rfl, rfl⟩
      · obtain ⟨frame, hframe, hid⟩ := h.isOpen.mp hopen
        exact ⟨frame, List.mem_cons_of_mem _ hframe, hid⟩
    · rintro ⟨frame, hframe, rfl, rfl⟩
      rcases List.mem_cons.mp hframe with rfl | hframe
      · exact .enter past kind
      · exact .stay _ (h.isOpen.mpr ⟨frame, hframe, rfl, rfl⟩) nofun
  persistent := h.persistent
  roots := by
    intro frame hframe
    rcases List.mem_cons.mp hframe with rfl | hframe
    · exact (congrArg (List.map Prod.fst) h.none_of_new).symm
    · exact h.roots frame hframe
  homes r hr id hid := (h.homes r hr id hid).trans (Nat.lt_succ_self _)

theorem use_leave_ok {s' : Scopes} (h : s.leave id = .ok s') : s.use (.leave id) = s' := by
  rw [use, h]

theorem use_leave_error {err : HeapError} (h : s.leave id = .error err) : s.use (.leave id) = s := by
  rw [use, h]

theorem root_smi {value : Word} (hsmi : value.isSmi = true) : s.root value = s := if_pos hsmi

/-- A pointer goes to the scope it belongs to, or to the roots that stay. -/
theorem root_pointer {value : Word} (hsmi : value.isSmi = false) :
    (s.home? = none ∧ s.root value = { s with persistent := value :: s.persistent }) ∨
    ∃ frame outer, s.frames = frame :: outer ∧ s.home? = some frame.id ∧
      s.root value = { s with frames := { frame with roots := value :: frame.roots } :: outer } := by
  obtain ⟨persistent, frames, nextId⟩ := s
  rw [root, home?, if_neg (by simp [hsmi])]
  cases frames with
  | nil => exact .inl ⟨rfl, rfl⟩
  | cons frame outer =>
    cases hkind : frame.kind with
    | temporary => exact .inr ⟨frame, outer, rfl, by simp [hkind], by simp [hkind]⟩
    | persistent => exact .inl ⟨by simp [hkind], by simp [hkind]⟩

theorem entered_root {value : Word} (h : Entered (.root value :: past) id kind) : Entered past id kind := by
  cases h with
  | before _ h => exact h

theorem open_root {value : Word} : Open (.root value :: past) id kind ↔ Open past id kind :=
  ⟨fun | .stay _ h _ => h, fun h => .stay _ h nofun⟩

theorem Tells.root (h : Tells past (after past)) (value : Word) :
    Tells (.root value :: past) (after (.root value :: past)) := by
  change Tells _ ((after past).root value)
  cases hsmi : value.isSmi with
  | true =>
    have hrooted : rooted (.root value :: past) = rooted past := if_pos hsmi
    rw [root_smi hsmi]
    exact ⟨h.ids, fun hid => h.entered (entered_root hid), open_root.trans h.isOpen, hrooted ▸ h.persistent,
      hrooted ▸ h.roots, hrooted ▸ h.homes⟩
  | false =>
    have hrooted : rooted (.root value :: past) = (value, (after past).home?) :: rooted past := if_neg (by simp [hsmi])
    obtain ⟨hhome, hroot⟩ | ⟨frame, outer, hframes, hhome, hroot⟩ := root_pointer hsmi <;> rw [hhome] at hrooted <;>
      rw [hroot]
    · refine ⟨h.ids, fun hid => h.entered (entered_root hid), open_root.trans h.isOpen, ?_, fun frame hframe => ?_, ?_⟩
      · simp [hrooted, h.persistent]
      · simp [hrooted, h.roots frame hframe]
      · simpa [hrooted] using h.homes
    · have hids := h.ids
      rw [hframes, List.pairwise_cons] at hids
      have hmem : frame ∈ (after past).frames := by simp [hframes]
      refine ⟨?_, fun hid => h.entered (entered_root hid), open_root.trans (h.isOpen.trans ?_), ?_, fun f hf => ?_, ?_⟩
      · exact List.pairwise_cons.mpr hids
      · simp [hframes]
      · simp [hrooted, h.persistent]
      · rcases List.mem_cons.mp hf with rfl | hf
        · simp [hrooted, h.roots frame hmem]
        · have hne : frame.id ≠ f.id := (hids.1 f hf).ne'
          simp [hrooted, hne, h.roots f (by simp [hframes, hf])]
      · rw [hrooted]
        intro r hr id hid
        rcases List.mem_cons.mp hr with rfl | hr
        · cases hid
          exact h.entered (h.isOpen.mpr ⟨frame, hmem, rfl, rfl⟩).entered
        · exact h.homes r hr id hid

theorem entered_leave {id' : Nat} (h : Entered (.leave id' :: past) id kind) : Entered past id kind := by
  cases h with
  | before _ h => exact h

theorem Tells.leave (h : Tells past (after past)) (id : Nat) :
    Tells (.leave id :: past) (after (.leave id :: past)) := by
  change Tells _ ((after past).use (.leave id))
  cases hleave : (after past).leave id with
  | ok s' =>
    rw [use_leave_ok hleave]
    obtain ⟨frame, hframes, rfl, hs'⟩ := leave_eq_ok.mp hleave
    have hids := h.ids
    rw [hframes, List.pairwise_cons] at hids
    have hframe : ∀ {f}, f ∈ s'.frames → f ∈ (after past).frames := fun hf => by simp [hframes, hf]
    refine ⟨hids.2, fun hid => ?_, fun {id kind} => ?_, ?_, fun f hf => h.roots f (hframe hf), ?_⟩
    · rw [hs']
      exact h.entered (entered_leave hid)
    · constructor
      · rintro (_ | ⟨_, hopen, hleft⟩)
        obtain ⟨f, hf, rfl, rfl⟩ := h.isOpen.mp hopen
        rw [hframes] at hf
        rcases List.mem_cons.mp hf with rfl | hf
        · exact absurd hleave (hleft rfl s')
        · exact ⟨f, hf, rfl, rfl⟩
      · rintro ⟨f, hf, rfl, rfl⟩
        refine .stay _ (h.isOpen.mpr ⟨f, hframe hf, rfl, rfl⟩) fun heq => ?_
        exact absurd (Use.leave.inj heq) (hids.1 f hf).ne'
    · rw [hs']
      exact h.persistent
    · rw [hs']
      exact h.homes
  | error err =>
    rw [use_leave_error hleave]
    refine ⟨h.ids, fun hid => h.entered (entered_leave hid), fun {id kind} => ?_, h.persistent, h.roots, h.homes⟩
    rw [← h.isOpen]
    exact ⟨fun | .stay _ hopen _ => hopen, fun hopen => .stay _ hopen fun heq s hs => by
      cases heq
      rw [hleave] at hs
      cases hs⟩

/-- Every history tells the truth. -/
theorem tells_after (past : List Use) : Tells past (after past) := by
  induction past with
  | nil => exact .start
  | cons u past ih =>
    cases u with
    | enter kind => exact ih.enter kind
    | root value => exact ih.root value
    | leave id => exact ih.leave id

/-! ### Recorded pointers -/

/-- Pointers by the scopes they belong to. -/
theorem perm_homes (rs : List (Word × Option Nat)) {ids : List Nat} (hids : ids.Nodup) :
    (rs.filter (·.2 == none) ++ ids.flatMap fun id => rs.filter (·.2 == some id)).Perm
      (rs.filter fun r => r.2.all (· ∈ ids)) := by
  induction ids with
  | nil =>
    rw [List.flatMap_nil, List.append_nil, List.filter_congr fun r _ => ?_]
    cases r.2 <;> simp
  | cons id ids ih =>
    obtain ⟨hid, hids⟩ := List.nodup_cons.mp hids
    have hown : (rs.filter fun r => r.2.all (· ∈ id :: ids)).filter (·.2 == some id) = rs.filter (·.2 == some id) := by
      rw [List.filter_filter]
      refine List.filter_congr fun r _ => ?_
      cases r.2 <;> simp +contextual
    have hothers : (rs.filter fun r => r.2.all (· ∈ id :: ids)).filter (fun r => !(r.2 == some id)) =
        rs.filter fun r => r.2.all (· ∈ ids) := by
      rw [List.filter_filter]
      refine List.filter_congr fun r _ => ?_
      cases r.2 with
      | none => simp
      | some home => by_cases h : home = id <;> simp [h, hid]
    have hsplit := List.filter_append_perm (·.2 == some id) (rs.filter fun r => r.2.all (· ∈ id :: ids))
    rw [hown, hothers] at hsplit
    rw [List.flatMap_cons]
    exact (List.perm_append_comm_assoc _ _ _).trans (((ih hids).append_left _).trans hsplit)

/-- Recorded are the pointers of each open scope, and those that stay. -/
theorem Tells.recorded_perm (h : Tells past s) : s.roots.Perm ((recorded past).map (·.1)) := by
  have hids : (s.frames.map (·.id)).Nodup := by
    rw [List.nodup_iff_pairwise_ne, List.pairwise_map]
    exact h.ids.imp fun hlt => hlt.ne'
  have hrecorded : recorded past = (rooted past).filter fun r => r.2.all (· ∈ s.frames.map (·.id)) := by
    refine List.filter_congr fun r _ => ?_
    obtain ⟨value, home⟩ := r
    cases home with
    | none => simp [Held]
    | some id => simp [Held, h.isOpen]
  have hroots : s.roots = ((rooted past).filter (·.2 == none) ++
      (s.frames.map (·.id)).flatMap fun id => (rooted past).filter (·.2 == some id)).map (·.1) := by
    rw [Scopes.roots, h.persistent, List.map_append, List.map_flatMap, List.flatMap_map]
    exact congrArg _ (List.flatMap_congr h.roots)
  rw [hroots, hrecorded]
  exact (perm_homes _ hids).map _

theorem rootCount_eq (s : Scopes) : s.rootCount = s.roots.length := by
  have hfold : ∀ (frames : List ScopeFrame) n, frames.foldl (fun n f => n + f.roots.length) n =
      n + (frames.flatMap (·.roots)).length := by
    intro frames
    induction frames with
    | nil => simp
    | cons frame outer ih =>
      intro n
      rw [List.foldl_cons, ih, List.flatMap_cons, List.length_append]
      omega
  rw [rootCount, hfold, roots, List.length_append]

/-- Only pointers are recorded. -/
theorem isPointer_of_rooted {r : Word × Option Nat} (h : r ∈ rooted past) : r.1.isPointer = true := by
  induction past with
  | nil => cases h
  | cons u past ih =>
    cases u with
    | enter kind => exact ih h
    | leave id => exact ih h
    | root value =>
      rw [rooted] at h
      split at h
      · exact ih h
      · rename_i hsmi
        rcases List.mem_cons.mp h with rfl | h
        · simpa [Word.isPointer] using hsmi
        · exact ih h

theorem recorded_congr {past' : List Use} (hrooted : rooted past' = rooted past)
    (h : ∀ r ∈ rooted past, Held past' r ↔ Held past r) : recorded past' = recorded past := by
  unfold recorded
  rw [hrooted]
  exact List.filter_congr fun r hr => decide_eq_decide.mpr (h r hr)

theorem Tells.recorded_enter (h : Tells past (after past)) (kind : ScopeKind) :
    recorded (.enter kind :: past) = recorded past := by
  refine recorded_congr rfl fun r hr => forall_congr' fun id => imp_congr_right fun hid => ⟨?_, ?_⟩
  · rintro ⟨kind', hopen⟩
    cases hopen with
    | enter => exact absurd (h.homes r hr _ hid) (lt_irrefl _)
    | stay _ hopen _ => exact ⟨kind', hopen⟩
  · rintro ⟨kind', hopen⟩
    exact ⟨kind', .stay _ hopen nofun⟩

theorem held_root {value : Word} {r : Word × Option Nat} : Held (.root value :: past) r ↔ Held past r := by
  unfold Held
  simp only [open_root]

theorem Tells.recorded_root (h : Tells past (after past)) (value : Word) : recorded (.root value :: past) =
    if value.isSmi then recorded past else (value, (after past).home?) :: recorded past := by
  classical
  split
  · rename_i hsmi
    exact recorded_congr (if_pos hsmi) fun _ _ => held_root
  · rename_i hsmi
    have hrooted : rooted (.root value :: past) = (value, (after past).home?) :: rooted past := if_neg hsmi
    have hheld : Held (.root value :: past) (value, (after past).home?) :=
      held_root.mpr fun id hid => ⟨_, (h.home_iff.mp hid).isOpen⟩
    unfold recorded
    rw [hrooted, List.filter_cons, if_pos (decide_eq_true_iff.mpr hheld)]
    exact congrArg _ (List.filter_congr fun _ _ => decide_eq_decide.mpr held_root)

/-- Leaving a scope drops the pointers that belonged to it. -/
theorem recorded_leave {s : Scopes} (hleave : (after past).leave id = .ok s) :
    recorded (.leave id :: past) = (recorded past).filter (·.2 ≠ some id) := by
  classical
  have hopen : ∀ id', (∃ kind, Open (.leave id :: past) id' kind) ↔ id' ≠ id ∧ ∃ kind, Open past id' kind := by
    intro id'
    constructor
    · rintro ⟨kind, hopen⟩
      cases hopen with
      | stay _ hopen hleft => exact ⟨fun heq => hleft (heq ▸ rfl) s (heq ▸ hleave), kind, hopen⟩
    · rintro ⟨hne, kind, hopen⟩
      exact ⟨kind, .stay _ hopen fun heq => absurd (Use.leave.inj heq).symm hne⟩
  unfold recorded
  rw [List.filter_filter]
  refine List.filter_congr fun r _ => ?_
  have hheld : Held (.leave id :: past) r ↔ r.2 ≠ some id ∧ Held past r := by
    obtain ⟨value, home⟩ := r
    unfold Held
    cases home with
    | none => simp
    | some home => simp only [hopen, Option.some.injEq, forall_eq', ne_eq]
  rw [Bool.eq_iff_iff, Bool.and_eq_true, decide_eq_true_iff, decide_eq_true_iff, decide_eq_true_iff]
  exact hheld

theorem recorded_refused {err : HeapError} (hleave : (after past).leave id = .error err) :
    recorded (.leave id :: past) = recorded past := by
  refine recorded_congr rfl fun r _ => forall_congr' fun id' => imp_congr_right fun _ => exists_congr fun kind => ?_
  constructor
  · intro hopen
    cases hopen with
    | stay _ hopen _ => exact hopen
  · refine fun hopen => .stay _ hopen fun heq s hs => ?_
    rw [← Use.leave.inj heq, hleave] at hs
    cases hs

/-- What holds of scopes after a history. -/
structure Keeps (past : List Use) : Prop where
  /-- A new scope has a larger id than all before it. -/
  fresh : ∀ kind id kind', Entered past id kind' → id < ((after past).enter kind).1
  /-- The innermost scope can be left, and no other one. -/
  leaves : ∀ id, (∃ s, (after past).leave id = .ok s) ↔ ∃ kind, Innermost past id kind
  /-- Leaving takes one scope away, with the pointers that belong to it, and nothing else. -/
  left : ∀ id s, (after past).leave id = .ok s → ∃ frame, (after past).frames = frame :: s.frames ∧ frame.id = id ∧
    frame.roots = ((rooted past).filter (·.2 == some id)).map (·.1) ∧ s = { after past with frames := s.frames }
  /-- What cannot be left changes nothing. -/
  refused : ∀ id err, (after past).leave id = .error err → after (.leave id :: past) = after past
  /-- A pointer belongs to the innermost scope if that is temporary. -/
  homes : ∀ id, (after past).home? = some id ↔ Innermost past id .temporary
  /-- Uses record what is rooted, but for small integers, and drop what belongs to a scope that is left. -/
  changes : ∀ u : Use, recorded (u :: past) =
    match u with
    | .enter _ => recorded past
    | .root value => if value.isSmi then recorded past else (value, (after past).home?) :: recorded past
    | .leave id =>
      match (after past).leave id with
      | .ok _ => (recorded past).filter (·.2 ≠ some id)
      | .error _ => recorded past
  contents : (after past).roots.Perm ((recorded past).map (·.1))
  count : (after past).rootCount = (recorded past).length
  pointers : ∀ w ∈ (after past).roots, w.isPointer = true

/-- Whatever was done with scopes in whatever order, they keep the pointers that they have to keep. -/
theorem scopes_keep (past : List Use) : Keeps past := by
  have tells := tells_after past
  constructor
  case fresh => exact fun kind id kind' hid => tells.entered hid
  case leaves => exact fun id => tells.leave_iff
  case left =>
    intro id s hleave
    obtain ⟨frame, hframes, rfl, hs⟩ := leave_eq_ok.mp hleave
    exact ⟨frame, hframes, rfl, tells.roots frame (by simp [hframes]), hs⟩
  case refused => exact fun id err hleave => use_leave_error hleave
  case homes => exact fun id => tells.home_iff
  case changes =>
    intro u
    cases u with
    | enter kind => exact tells.recorded_enter kind
    | root value => exact tells.recorded_root value
    | leave id =>
      cases hleave : (after past).leave id with
      | ok s => simpa only [hleave] using recorded_leave hleave
      | error err => simpa only [hleave] using recorded_refused hleave
  case contents => exact tells.recorded_perm
  case count => rw [rootCount_eq, tells.recorded_perm.length_eq, List.length_map]
  case pointers =>
    intro w hw
    obtain ⟨r, hr, rfl⟩ := List.mem_map.mp (tells.recorded_perm.mem_iff.mp hw)
    exact isPointer_of_rooted (List.mem_of_mem_filter hr)

/-- A scope that is not the innermost one cannot be left, and keeps its pointer. -/
example : let past := [.leave 0, .root (.pointer 32), .enter .persistent, .root (.pointer 16), .enter .temporary]
    (after past).rootCount = 2 ∧ (after (.leave 0 :: .leave 1 :: past)).rootCount = 1 := by decide

end

end ScriptEngine.Scopes
