import Mathlib
import ScriptEngine.Proofs.Heap.Parts
import ScriptEngine.Proofs.Machine.Allocation
import ScriptEngine.Proofs.Machine.Operators

/-!
Stubs that put objects together, from what other stubs allocate. Each leaves the heap with the new cells that
the heap's own operation makes, though it takes the memory for them in another order.
-/

namespace ScriptEngine

open State Builder

namespace Engine

open Machine (argumentAt callFunction enter maxJumps)
open Meaning (Progress)

variable {e₀ e t : Engine} {T : Contents} {size n bytes depth words : Nat} {tr : Transitions}
  {cells : List (Word × Cell)} {self : Activation} {s : Stub} {w : Word}

/-- An engine has allocated some cells, and noted traps and events meanwhile. -/
structure Stage (e₀ : Engine) (T : Contents) (size n bytes : Nat) (tr : Transitions) (cells : List (Word × Cell))
    (e : Engine) : Prop where
  noted : Noted e₀ e e.heap
  built : Heap.Built e₀.heap T size n bytes tr cells e.heap

namespace Stage

variable (stage : Stage e₀ T size n bytes tr cells e)

include stage

theorem next {heap : Heap} {n' bytes' : Nat} {tr' : Transitions} {cells' : List (Word × Cell)} (noted : Noted e t heap)
    (built : Heap.Built e₀.heap T size n' bytes' tr' cells' heap) : Stage e₀ T size n' bytes' tr' cells' t := by
  obtain rfl := noted.heap_eq
  exact ⟨stage.noted.trans noted, built⟩

theorem entered : Stage e₀ T size n bytes tr cells e.entered := stage.next (noted_entered e) stage.built

theorem shelved (shelved : Shelved T e₀) : ∃ T', Shelved T' e ∧ Gains T T' cells := by
  obtain ⟨T', laid, gains⟩ := stage.built.tables
  exact ⟨T', stage.noted.shelved shelved ⟨stage.built.kept, fun _ _ hw => stage.built.strings ▸ hw⟩ laid gains.sub, gains⟩

omit stage in
/-- No stage compiles a stub. -/
theorem compiled {n' bytes' : Nat} {tr' : Transitions} {cells' : List (Word × Cell)} {name : String}
    (stage : Stage e₀ T size n bytes tr cells e) (hs : e.stubs.compiled? name = some s)
    (stage' : Stage e₀ T size n' bytes' tr' cells' t) : t.stubs.compiled? name = some s := by
  rw [stage'.noted.stubs_eq, ← stage.noted.stubs_eq]
  exact hs

/-- A word of a new cell is written. -/
theorem write {i j k : Nat} {v : Word} {c : Cell} (c' : Cell) (hi : cells[i]? = some (w, c))
    (hj : j < (c.words e₀.heap.rootShape).length)
    (hc : c'.words e₀.heap.rootShape = (c.words e₀.heap.rootShape).set j v) (hk : k = 8 * j) :
    w.isSmi = false ∧ w.address + k < 2 ^ 64 ∧
      Stage e₀ T size n bytes tr (cells.set i (w, c')) (e.withMemory (e.heap.memory.store (w.address + k) v)) := by
  obtain ⟨T', laid, gains⟩ := stage.built.tables
  have hcell := gains.get hi
  have hbelow := laid.below hcell
  rw [stage.built.kept.rootShape, Cell.size] at hbelow
  obtain ⟨heap, run, built⟩ := stage.built.write c' hi hj hc
  obtain rfl := Heap.write_eq_ok.mp run
  subst hk
  exact ⟨Heap.isSmi_of_cell laid hcell, by omega, stage.next ⟨_, _, rfl⟩ built⟩

end Stage

variable (shelved : Shelved T e₀) (calm : e₀.Calm)

include shelved calm

/-- The basic allocation, as a stage. -/
theorem Stage.tagged {kind : RootShape} (stage : Stage e₀ T size (n + 1) bytes tr cells e)
    (hkind : kind ∈ Stub.allocatedShapes) (hs : e.stubs.compiled? (allocStub kind) = some s) {k : Nat} (positive : 0 < k)
    (hk : (k : Int) ≤ Word.smiMax) (fits : Layout.align k ≤ size)
    (below : e.heap.young.cursor.top + Layout.align k < 2 ^ 63) (harg : argumentAt self.args 0 = .smi k) :
    ∃ w t rest, callFunction (enter (depth + 2)) s.function self e = .ok w t ∧ rest.length + 1 = (k + 7) / 8 ∧
      Stage e₀ T size n (bytes + Layout.align k) tr ((w, .raw (e₀.heap.rootShape kind :: rest)) :: cells) t := by
  obtain ⟨T', shelved', -⟩ := stage.shelved shelved
  obtain ⟨w, heap, rest, run, hlength, built⟩ :=
    stage.built.young positive (by unfold Word.smiMax at hk; omega) fits (e.heap.rootShape kind)
  rw [stage.built.kept.rootShape] at built
  obtain ⟨t, hrun, hnoted⟩ : ∃ t, callFunction (enter (depth + 2)) s.function self e = .ok w t ∧ Noted e t heap :=
    shelved'.tagged_runs (stage.noted.calm calm) hkind hs hk below harg positive run
  exact ⟨w, t, rest, hrun, hlength, stage.next hnoted built⟩

omit shelved calm in
/-- Words become storage full of holes. -/
theorem runCode_layRows {values : InstrId → Nat → Word} (call : Caller) (self : Activation) {s : Progress Word}
    {w hole : Word} (small : 8 * (words + 2) < 2 ^ 62) (hsmi : w.isSmi = false)
    (below : w.address + 8 * (words + 2) < 2 ^ 64) (hnew : s.regs ⟨4⟩ = w) (hcount : s.regs ⟨0⟩ = .smi words)
    (hhole : values ⟨7⟩ 0 = hole) : (machineWorld values call self).runCode (number 5 layRows) s e = .ok (.returned w)
      ((e.withMemory (e.heap.memory.store (w.address + Layout.Store.length) (.smi words))).withMemory
        ((e.heap.memory.store (w.address + Layout.Store.length) (.smi words)).fill (w.address + Layout.Store.items) words
          hole)) := by
  have huntag : (Word.smi words).untag.signed = words :=
    Word.untag_smi (by unfold Word.smiMin; omega) (by unfold Word.smiMax; omega)
  have hlength : w.address + Layout.Store.length < 2 ^ 64 := by unfold Layout.Store.length; omega
  have hitems : w.address + Layout.Store.items + 8 * words < 2 ^ 64 := by unfold Layout.Store.items; omega
  simp only [layRows, number, Nat.reduceAdd]
  rw [runCode_write (by decide) (by rw [hnew]; exact hsmi) (by rw [hnew]; exact hlength), runCode_untag, runCode_literal,
    runCode_fill words (by simp [hnew, hsmi]) (by simp [hcount, huntag]) (by simpa [hnew] using hitems), runCode_ret]
  simp [hnew, hcount, hhole]
  rfl

omit shelved calm in
/-- Storage: what is allocated for it becomes storage full of holes. -/
theorem runCode_storeRows {values : InstrId → Nat → Word} {call : Caller} {hole : Word} (small : 8 * (words + 2) < 2 ^ 62)
    (harg : argumentAt self.args 0 = .smi words) (hfactor : values ⟨1⟩ 1 = .smi 8) (hheader : values ⟨2⟩ 1 = .smi 16)
    (hhole : values ⟨7⟩ 0 = hole) (hcall : callFunction call (values ⟨4⟩ 0)
      ⟨values ⟨4⟩ 0, values ⟨4⟩ 2, #[.smi (8 * (words + 2) : Nat)], .ofInt (1 : Nat)⟩ e = .ok w t)
    (hsmi : w.isSmi = false) (below : w.address + 8 * (words + 2) < 2 ^ 64) :
    (machineWorld values call self).runCode (number 0 storeRows) { regs := fun _ => default } e = .ok (.returned w)
      ((t.withMemory (t.heap.memory.store (w.address + Layout.Store.length) (.smi words))).withMemory
        ((t.heap.memory.store (w.address + Layout.Store.length) (.smi words)).fill (w.address + Layout.Store.items) words
          hole)) := by
  have hproduct : (Machine.compute ∅ (PrimOp.mul.arithmetic (.word (.smi words)) (.word (.smi 8)))).1 =
      .smi (words * 8) :=
    congrArg Prod.fst (compute_exact (by unfold Word.smiMin Word.smiMax; omega) (by decide) (by decide))
  have hsum : (Machine.compute ∅ (PrimOp.add.arithmetic (.word (.smi (words * 8))) (.word (.smi 16)))).1 =
      .smi (8 * (words + 2) : Nat) := by
    rw [compute_exact (by unfold Word.smiMin Word.smiMax; omega) (by decide) (by decide)]
    exact congrArg Word.smi (by unfold exact; push_cast; omega)
  rw [storeRows, number_append]
  simp only [sizeRows, number, Stub.smi, Nat.reduceAdd, List.cons_append, List.nil_append, List.length_cons,
    List.length_nil]
  rw [runCode_stubArg (by decide), runCode_arithmeticConst (by decide), runCode_arithmeticConst (by decide),
    runCode_push, runCode_callStub]
  refine (bind_of_ok (a := w) (t := t) ?_).trans ?_
  · simp [harg, hfactor, hheader, hproduct, hsum]
    exact hcall
  · exact runCode_layRows _ _ small hsmi below (by simp) (by simp [harg]) hhole

/-- Storage full of holes, which is the storage that the heap allocates. -/
theorem Stage.store_runs (stage : Stage e₀ T size (n + 1) bytes tr cells e)
    (hs : e.stubs.compiled? "allocField" = some s) (fits : 8 * (words + 2) ≤ size)
    (below : e.heap.young.cursor.top + 8 * (words + 2) < 2 ^ 63) (harg : argumentAt self.args 0 = .smi words) :
    ∃ w heap t, Heap.allocStore words e.heap = .ok w heap ∧
      callFunction (enter (depth + 3)) s.function self e = .ok w t ∧ Noted e t heap ∧
      Heap.Built e₀.heap T size n (bytes + 8 * (words + 2)) tr ((w, .store (List.replicate words e₀.heap.hole)) :: cells)
        heap := by
  obtain ⟨T', shelved', -⟩ := stage.shelved shelved
  have hsize := stage.built.maps.size_lt shelved'.laid
  have halign : Layout.align (8 * (words + 2)) = 8 * (words + 2) := by
    rw [Heap.align_eq (by omega)]
    omega
  obtain ⟨values, hstanding, hruns⟩ := shelved'.line_runs (stage.noted.calm calm) hs (by simp [StubLibrary.standardSources])
    build_store stublike_store
  have hfactor : values ⟨1⟩ 1 = .smi 8 := hstanding.smi rfl (by decide) .refl rfl rfl rfl
  have hheader : values ⟨2⟩ 1 = .smi 16 := hstanding.smi rfl (by decide) .refl rfl rfl rfl
  obtain ⟨_, s', hs', hcallee⟩ := hstanding.row (k := 4) rfl (by decide) .refl (i := 0) rfl rfl
  obtain ⟨_, hhole⟩ := hstanding.row (k := 7) rfl (by decide) .refl (i := 0) rfl rfl
  obtain ⟨w, heap, run, built⟩ := stage.built.store fits
  have hrun := run
  simp only [Heap.allocStore, bind_eq_ok, get_eq_ok, modify_eq_ok, pure_eq_ok, Heap.write_eq_ok,
    Heap.storeSize_eq (show words < 2 ^ 60 by omega)] at run
  obtain ⟨_, _, ⟨rfl, rfl⟩, w, h₁, allocated, _, _, rfl, _, _, rfl, rfl, rfl⟩ := run
  obtain ⟨rest, hlength, -, hlaid, hquiet⟩ := Heap.allocYoung_ok shelved'.laid (by omega) (by omega) allocated
  have hheap : e.entered.heap = e.heap := (noted_entered e).heap_eq
  obtain ⟨T'', shelved'', -⟩ := stage.entered.shelved shelved
  obtain ⟨t, hcall, hnoted⟩ : ∃ t, callFunction (enter (depth + 2)) s'.function
      ⟨s'.function, values ⟨4⟩ 2, #[.smi (8 * (words + 2) : Nat)], .ofInt (1 : Nat)⟩ e.entered = .ok w t ∧
        Noted e.entered t h₁ :=
    shelved''.tagged_runs (stage.entered.noted.calm calm) (by decide : RootShape.field ∈ Stub.allocatedShapes)
      (stage.compiled hs' stage.entered) (by unfold Word.smiMax; omega) (by rw [hheap, halign]; exact below) rfl
      (show 0 < 8 * (words + 2) by omega) (by rw [hheap]; exact allocated)
  rw [← hcallee] at hcall
  have hsmi := Heap.isSmi_of_cell hlaid (Function.update_self ..)
  have hbelow := hlaid.below (Function.update_self ..)
  simp only [Cell.size, Cell.words, List.length_cons] at hbelow
  have hblock := runCode_storeRows (by omega) harg hfactor hheader (show values ⟨7⟩ 0 = e.heap.hole from hhole) hcall hsmi
    (by omega)
  rw [show t.heap = h₁ from hnoted.heap_eq, ← hquiet.hole] at hblock
  refine ⟨w, _, _, hrun, hruns hblock, ?_, built⟩
  obtain ⟨traps, events, rfl⟩ := (noted_entered e).trans hnoted
  exact ⟨traps, events, rfl⟩

theorem Stage.store (stage : Stage e₀ T size (n + 1) bytes tr cells e) (hs : e.stubs.compiled? "allocField" = some s)
    (fits : 8 * (words + 2) ≤ size) (below : e.heap.young.cursor.top + 8 * (words + 2) < 2 ^ 63)
    (harg : argumentAt self.args 0 = .smi words) :
    ∃ w t, callFunction (enter (depth + 3)) s.function self e = .ok w t ∧
      Stage e₀ T size n (bytes + 8 * (words + 2)) tr ((w, .store (List.replicate words e₀.heap.hole)) :: cells) t := by
  obtain ⟨w, heap, t, -, hcall, hnoted, built⟩ := stage.store_runs shelved calm hs fits below harg
  exact ⟨w, t, hcall, stage.next hnoted built⟩

/-- An object gets storage that is there. -/
theorem Stage.join {kind : RootShape} {m : Nat} {st : Word} {ws : List Word} {values : InstrId → Nat → Word}
    {p : Progress Word} (stage : Stage e₀ T size (n + 1) bytes tr ((st, .store ws) :: cells) e)
    (hkind : kind ∈ Stub.allocatedShapes) (fits : 16 ≤ size) (hs : e.stubs.compiled? (allocStub kind) = some s)
    (hcallee : values ⟨m + 2⟩ 0 = s.function) (hbytes : values ⟨m + 1⟩ 0 = .smi 16) (hstore : p.regs ⟨m⟩ = st) :
    ∃ o t, (machineWorld values (enter (depth + 2)) self).runCode (number (m + 1) (joinRows kind m)) p e =
        .ok (.returned o) t ∧
      Stage e₀ T size n (bytes + 16) tr
        ((o, .object (e₀.heap.rootShape kind) st []) :: (st, .store ws) :: cells) t := by
  obtain ⟨T', shelved', -⟩ := stage.shelved shelved
  have htop := shelved'.laid.spaces.first.top_lt
  obtain ⟨o, t, rest, hcall, hlength, stage'⟩ : ∃ o t rest, callFunction (enter (depth + 2)) s.function
      ⟨s.function, values ⟨m + 2⟩ 2, #[.smi (16 : Nat)], .ofInt (1 : Nat)⟩ e = .ok o t ∧ rest.length + 1 = 2 ∧
        Stage e₀ T size n (bytes + 16) tr
          ((o, .raw (e₀.heap.rootShape kind :: rest)) :: (st, .store ws) :: cells) t :=
    stage.tagged shelved calm hkind hs (k := 16) (by decide) (by decide) fits
      (by rw [show Layout.align 16 = 16 from rfl]; omega) rfl
  obtain ⟨x, rfl⟩ := List.length_eq_one_iff.mp (Nat.succ.inj hlength)
  obtain ⟨hsmi, hlt, stage''⟩ := stage'.write (i := 0) (j := 1) (k := Layout.Object.store) (v := st)
    (.object (e₀.heap.rootShape kind) st []) rfl (by simp [Cell.words]) rfl rfl
  refine ⟨o, _, ?_, stage''⟩
  simp only [joinRows, number, Stub.smi]
  rw [runCode_pushConst, runCode_callStub]
  refine (bind_of_ok (a := o) (t := t) ?_).trans ?_
  · rw [hcallee]
    simp [hbytes]
    exact hcall
  · rw [runCode_write (by decide) (by simpa using hsmi) (by simpa using hlt), runCode_ret]
    simp only [Progress.regs_setReg, Progress.regs_drop, Progress.regs_push, if_true, InstrId.mk.injEq, hstore,
      if_neg (show ¬ m = m + 1 + 1 by omega)]
    rfl

/-- An empty object. -/
theorem Stage.object (stage : Stage e₀ T size (n + 2) bytes tr cells e) (fits : 80 ≤ size)
    (hs : e.stubs.compiled? "allocObject" = some s) :
    ∃ o st t, callFunction (enter (depth + 4)) s.function self e = .ok o t ∧
      Stage e₀ T size n (bytes + 96) tr ((o, .object (e₀.heap.rootShape .object) st []) ::
        (st, .store (List.replicate 8 e₀.heap.hole)) :: cells) t := by
  obtain ⟨T', shelved', -⟩ := stage.entered.shelved shelved
  have htop := shelved'.laid.spaces.first.top_lt
  obtain ⟨_, shelved'', -⟩ := stage.shelved shelved
  obtain ⟨values, hstanding, hruns⟩ := shelved''.line_runs (stage.noted.calm calm) hs (by simp [StubLibrary.standardSources])
    build_object stublike_object
  have hwords : values ⟨0⟩ 0 = .smi 8 := hstanding.smi rfl (by decide) .refl rfl rfl rfl
  have hbytes : values ⟨2⟩ 0 = .smi 16 := hstanding.smi rfl (by decide) .refl rfl rfl rfl
  obtain ⟨_, s₁, hs₁, hcallee₁⟩ := hstanding.row (k := 1) rfl (by decide) .refl (i := 0) rfl rfl
  obtain ⟨_, s₂, hs₂, hcallee₂⟩ := hstanding.row (k := 3) rfl (by decide) .refl (i := 0) rfl rfl
  obtain ⟨st, t, hcall, stage₁⟩ : ∃ st t, callFunction (enter (depth + 3)) s₁.function
      ⟨s₁.function, values ⟨1⟩ 2, #[.smi (8 : Nat)], .ofInt (1 : Nat)⟩ e.entered = .ok st t ∧
        Stage e₀ T size (n + 1) (bytes + 8 * (8 + 2)) tr ((st, .store (List.replicate 8 e₀.heap.hole)) :: cells) t :=
    stage.entered.store shelved calm (stage.compiled hs₁ stage.entered) fits (by omega) rfl
  obtain ⟨o, t', hjoin, stage₂⟩ : ∃ o t', (machineWorld values (enter (depth + 3)) self).runCode
      (number 2 (joinRows .object 1)) ((({ regs := fun _ => default } : Progress Word).push (.smi 8)).drop 1 |>.setReg ⟨1⟩ st)
        t = .ok (.returned o) t' ∧
          Stage e₀ T size n (bytes + 8 * (8 + 2) + 16) tr ((o, .object (e₀.heap.rootShape .object) st []) ::
            (st, .store (List.replicate 8 e₀.heap.hole)) :: cells) t' :=
    stage₁.join shelved calm (by decide) (by omega) (stage.compiled hs₂ stage₁) hcallee₂ hbytes rfl
  refine ⟨o, st, t', hruns ?_, stage₂⟩
  rw [objectRows, number_append]
  simp only [number, Stub.smi, Nat.reduceAdd, List.cons_append, List.nil_append, List.length_cons, List.length_nil]
  rw [runCode_pushConst, hwords, runCode_callStub, hcallee₁]
  exact (bind_of_ok hcall).trans hjoin

/-- An array of holes. -/
theorem Stage.array (stage : Stage e₀ T size (n + 2) bytes tr cells e) (fits : 8 * (words + 2) ≤ size) (fits' : 16 ≤ size)
    (below : e.heap.young.cursor.top + 8 * (words + 2) < 2 ^ 63) (hs : e.stubs.compiled? "allocArray" = some s)
    (harg : argumentAt self.args 0 = .smi words) :
    ∃ o st t, callFunction (enter (depth + 4)) s.function self e = .ok o t ∧
      Stage e₀ T size n (bytes + (8 * (words + 2) + 16)) tr ((o, .object (e₀.heap.rootShape .array) st []) ::
        (st, .store (List.replicate words e₀.heap.hole)) :: cells) t := by
  obtain ⟨_, shelved', -⟩ := stage.shelved shelved
  obtain ⟨values, hstanding, hruns⟩ := shelved'.line_runs (stage.noted.calm calm) hs (by simp [StubLibrary.standardSources])
    build_array stublike_array
  have hbytes : values ⟨3⟩ 0 = .smi 16 := hstanding.smi rfl (by decide) .refl rfl rfl rfl
  obtain ⟨_, s₁, hs₁, hcallee₁⟩ := hstanding.row (k := 2) rfl (by decide) .refl (i := 0) rfl rfl
  obtain ⟨_, s₂, hs₂, hcallee₂⟩ := hstanding.row (k := 4) rfl (by decide) .refl (i := 0) rfl rfl
  have hheap : e.entered.heap = e.heap := (noted_entered e).heap_eq
  obtain ⟨st, t, hcall, stage₁⟩ : ∃ st t, callFunction (enter (depth + 3)) s₁.function
      ⟨s₁.function, values ⟨2⟩ 2, #[.smi words], .ofInt (1 : Nat)⟩ e.entered = .ok st t ∧
        Stage e₀ T size (n + 1) (bytes + 8 * (words + 2)) tr ((st, .store (List.replicate words e₀.heap.hole)) :: cells) t :=
    stage.entered.store shelved calm (stage.compiled hs₁ stage.entered) fits (by rw [hheap]; exact below) rfl
  obtain ⟨o, t', hjoin, stage₂⟩ : ∃ o t', (machineWorld values (enter (depth + 3)) self).runCode
      (number 3 (joinRows .array 2)) (((({ regs := fun _ => default } : Progress Word).setReg ⟨0⟩ (.smi words)).push
        (.smi words)).drop 1 |>.setReg ⟨2⟩ st) t = .ok (.returned o) t' ∧
          Stage e₀ T size n (bytes + (8 * (words + 2) + 16)) tr ((o, .object (e₀.heap.rootShape .array) st []) ::
            (st, .store (List.replicate words e₀.heap.hole)) :: cells) t' :=
    stage₁.join shelved calm (by decide) fits' (stage.compiled hs₂ stage₁) hcallee₂ hbytes rfl
  refine ⟨o, st, t', hruns ?_, stage₂⟩
  rw [arrayRows, number_append]
  simp only [number, Nat.reduceAdd, List.cons_append, List.nil_append, List.length_cons, List.length_nil]
  rw [runCode_stubArg (by decide), runCode_push, runCode_callStub, hcallee₁, Progress.regs_setReg, if_pos rfl, Nat.cast_zero,
    harg]
  exact (bind_of_ok hcall).trans hjoin

/-- The words for a function become one. -/
theorem Stage.finish (typed : Heap.Typed e₀.heap T) {f st code x y z key : Word} {values : InstrId → Nat → Word}
    {p : Progress Word} {object host : Stub} {id : Nat} (stage : Stage e₀ T 80 (n + 4) bytes e₀.heap.transitions
      [(f, .raw [e₀.heap.rootShape .function, x, y, z]), (st, .store (List.replicate 8 e₀.heap.hole))] e)
    (hstore : p.regs ⟨2⟩ = st) (hcode : p.regs ⟨0⟩ = code) (hf : p.regs ⟨4⟩ = f)
    (hroot : values ⟨7⟩ 0 = e₀.heap.rootShape .object) (hobject : e.stubs.compiled? "allocObject" = some object)
    (hcallee : values ⟨9⟩ 0 = object.function) (hkey : e₀.heap.strings["prototype"]? = some key)
    (hname : values ⟨10⟩ 0 = key) (hhost : e.stubs.compiled? hostStub = some host) (hfunction : values ⟨16⟩ 0 = host.function)
    (hid : callbackId "storeProperty" = .ok id) (hcallback : values ⟨14⟩ 0 = .smi id) :
    ∃ (a : Heap.FunctionParts) (t : Engine), (machineWorld values (enter (depth + 4)) self).runCode
        (number 5 makeRows ++ (number 11 (hostRows "storeProperty" [⟨4⟩, ⟨10⟩, ⟨9⟩] 11 0) ++
          [⟨⟨17⟩, .prim .ret, [.value ⟨4⟩], ⟨0⟩⟩])) p e = .ok (.returned a.function) t ∧
      (∀ c, e₀.heap.transitions.child? (e₀.heap.rootShape .function) key = some c → a.shape = c) ∧
      Stage e₀ T 80 n (bytes + 96) (e₀.heap.sprouted key a.shape) (a.listed e₀.heap key code) t := by
  obtain ⟨hsmi, hlt₁, stage₁⟩ := stage.write (i := 0) (j := 1) (k := Layout.Function.store) (v := st)
    (.raw [e₀.heap.rootShape .function, st, y, z]) rfl (by simp [Cell.words]) rfl rfl
  obtain ⟨-, hlt₂, stage₂⟩ := stage₁.write (i := 0) (j := 2) (k := Layout.Function.code) (v := code)
    (.raw [e₀.heap.rootShape .function, st, code, z]) rfl (by simp [Cell.words]) rfl rfl
  obtain ⟨-, hlt₃, stage₃⟩ := stage₂.write (i := 0) (j := 3) (k := Layout.Function.instanceShape)
    (v := e₀.heap.rootShape .object) (.object (e₀.heap.rootShape .function) st [code, e₀.heap.rootShape .object]) rfl
    (by simp [Cell.words]) rfl rfl
  simp only [memory_withMemory, withMemory_withMemory] at stage₃
  generalize hmade : e.withMemory _ = made at stage₃
  obtain ⟨o, ost, t, hcall, stage₄⟩ : ∃ o ost t, callFunction (enter (depth + 4)) object.function
      ⟨object.function, values ⟨9⟩ 2, #[], .ofInt (0 : Nat)⟩ made = .ok o t ∧
        Stage e₀ T 80 (n + 2) (bytes + 96) e₀.heap.transitions [(o, .object (e₀.heap.rootShape .object) ost []),
          (ost, .store (List.replicate 8 e₀.heap.hole)),
          (f, .object (e₀.heap.rootShape .function) st [code, e₀.heap.rootShape .object]),
          (st, .store (List.replicate 8 e₀.heap.hole))] t :=
    stage₃.object shelved calm (by decide) (stage.compiled hobject stage₃)
  obtain ⟨a, heap, rfl, hset, known, built⟩ := stage₄.built.complete typed (typed.interned.mp hkey)
  obtain ⟨_, shelved', -⟩ := stage₄.shelved shelved
  obtain ⟨t', hanswer, hnoted⟩ : ∃ t', callHost [.smi id, a.function, key, o] t = .ok o t' ∧ Noted t t' heap :=
    callHost_heap hid (callback_storeProperty hset)
  refine ⟨a, t', ?_, known, stage₄.next hnoted built⟩
  simp only [makeRows, number, Nat.reduceAdd, List.cons_append, List.nil_append]
  rw [runCode_write (by decide) (by rw [hf]; exact hsmi) (by rw [hf]; exact hlt₁),
    runCode_write (by decide) (by rw [hf]; exact hsmi) (by rw [hf]; exact hlt₂), runCode_literal,
    runCode_write (by decide) (by simpa [hf] using hsmi) (by simpa [hf] using hlt₃), runCode_callStub]
  simp only [memory_withMemory, withMemory_withMemory, Progress.regs_setReg, InstrId.mk.injEq, Nat.reduceEqDiff, if_false,
    if_true, hf, hcode, hstore, hroot, hmade, hcallee]
  refine (bind_of_ok hcall).trans ?_
  rw [runCode_literal, runCode_hostRows]
  refine (bind_of_ok (a := o) (t := t') ?_).trans ?_
  · refine (askHost_eq (hfunction ▸ shelved'.leadsToHost (stage.compiled hhost stage₄)) (by simp) (depth + 3)).trans ?_
    simpa [hf, hname, hcallback] using hanswer
  · rw [runCode_ret]
    simp [hf]
    rfl

/-- A function with a prototype. -/
theorem Stage.function (typed : Heap.Typed e₀.heap T) (stage : Stage e₀ T 80 (n + 6) bytes e₀.heap.transitions [] e)
    (hs : e.stubs.compiled? "allocFn" = some s) :
    ∃ (key : Word) (a : Heap.FunctionParts) (t : Engine), e₀.heap.strings["prototype"]? = some key ∧
      callFunction (enter (depth + 5)) s.function self e = .ok a.function t ∧
      (∀ c, e₀.heap.transitions.child? (e₀.heap.rootShape .function) key = some c → a.shape = c) ∧
      Stage e₀ T 80 n (bytes + 208) (e₀.heap.sprouted key a.shape)
        (a.listed e₀.heap key (argumentAt self.args 0)) t := by
  obtain ⟨_, shelved', -⟩ := stage.shelved shelved
  obtain ⟨_, entered, -⟩ := stage.entered.shelved shelved
  have htop := entered.laid.spaces.first.top_lt
  obtain ⟨values, hstanding, hruns⟩ := shelved'.line_runs (stage.noted.calm calm) hs (by simp [StubLibrary.standardSources])
    build_function stublike_function
  have hwords : values ⟨1⟩ 0 = .smi 8 := hstanding.smi rfl (by decide) .refl rfl rfl rfl
  have hbytes : values ⟨3⟩ 0 = .smi 32 := hstanding.smi rfl (by decide) .refl rfl rfl rfl
  obtain ⟨_, s₁, hs₁, hcallee₁⟩ := hstanding.row (k := 2) rfl (by decide) .refl (i := 0) rfl rfl
  obtain ⟨_, s₂, hs₂, hcallee₂⟩ := hstanding.row (k := 4) rfl (by decide) .refl (i := 0) rfl rfl
  obtain ⟨_, s₃, hs₃, hcallee₃⟩ := hstanding.row (k := 9) rfl (by decide) .refl (i := 0) rfl rfl
  obtain ⟨_, host, hhost, hfunction⟩ := hstanding.row (k := 16) rfl (by decide) .refl (i := 0) rfl rfl
  obtain ⟨_, id, hid, hcallback⟩ := hstanding.row (k := 14) rfl (by decide) .refl (i := 0) rfl rfl
  obtain ⟨_, hroot⟩ := hstanding.row (k := 7) rfl (by decide) .refl (i := 0) rfl rfl
  obtain ⟨_, hkey⟩ := hstanding.row (k := 10) rfl (by decide) .refl (i := 0) rfl rfl
  obtain ⟨st, t₁, hcall₁, stage₁⟩ : ∃ st t₁, callFunction (enter (depth + 4)) s₁.function
      ⟨s₁.function, values ⟨2⟩ 2, #[.smi (8 : Nat)], .ofInt (1 : Nat)⟩ e.entered = .ok st t₁ ∧
        Stage e₀ T 80 (n + 5) (bytes + 8 * (8 + 2)) e₀.heap.transitions [(st, .store (List.replicate 8 e₀.heap.hole))] t₁ :=
    stage.entered.store shelved calm (stage.compiled hs₁ stage.entered) (by decide) (by omega) rfl
  obtain ⟨_, shelved₁, -⟩ := stage₁.shelved shelved
  have htop₁ := shelved₁.laid.spaces.first.top_lt
  obtain ⟨f, t₂, rest, hcall₂, hlength, stage₂⟩ : ∃ f t₂ rest, callFunction (enter (depth + 4)) s₂.function
      ⟨s₂.function, values ⟨4⟩ 2, #[.smi (32 : Nat)], .ofInt (1 : Nat)⟩ t₁ = .ok f t₂ ∧ rest.length + 1 = 4 ∧
        Stage e₀ T 80 (n + 4) (bytes + 8 * (8 + 2) + 32) e₀.heap.transitions
          [(f, .raw (e₀.heap.rootShape .function :: rest)), (st, .store (List.replicate 8 e₀.heap.hole))] t₂ :=
    stage₁.tagged shelved calm (by decide) (stage.compiled hs₂ stage₁) (k := 32) (by decide) (by decide) (by decide)
      (by rw [show Layout.align 32 = 32 from rfl]; omega) rfl
  obtain ⟨x, y, z, rfl⟩ := List.length_eq_three.mp (Nat.succ.inj hlength)
  have hroot' : values ⟨7⟩ 0 = e₀.heap.rootShape .object := by rw [← stage.built.kept.rootShape]; exact hroot
  obtain ⟨a, t, hfinish, known, stage₃⟩ : ∃ (a : Heap.FunctionParts) (t : Engine),
      (machineWorld values (enter (depth + 4)) self).runCode (number 5 makeRows ++
        (number 11 (hostRows "storeProperty" [⟨4⟩, ⟨10⟩, ⟨9⟩] 11 0) ++ [⟨⟨17⟩, .prim .ret, [.value ⟨4⟩], ⟨0⟩⟩]))
          ((({ regs := fun _ => default } : Progress Word).setReg ⟨0⟩ (argumentAt self.args 0)).push (.smi 8) |>.drop 1
            |>.setReg ⟨2⟩ st |>.push (.smi 32) |>.drop 1 |>.setReg ⟨4⟩ f) t₂ = .ok (.returned a.function) t ∧
      (∀ c, e₀.heap.transitions.child? (e₀.heap.rootShape .function) (values ⟨10⟩ 0) = some c → a.shape = c) ∧
      Stage e₀ T 80 n (bytes + 8 * (8 + 2) + 32 + 96) (e₀.heap.sprouted (values ⟨10⟩ 0) a.shape)
        (a.listed e₀.heap (values ⟨10⟩ 0) (argumentAt self.args 0)) t :=
    stage₂.finish shelved calm typed rfl rfl rfl hroot' (stage.compiled hs₃ stage₂) hcallee₃
      (by rw [← stage.built.strings]; exact hkey) rfl (stage.compiled hhost stage₂) hfunction hid hcallback
  refine ⟨values ⟨10⟩ 0, a, t, by rw [← stage.built.strings]; exact hkey, hruns ?_, known, stage₃⟩
  have hrows : number 0 functionRows = number 0 askRows ++ (number 5 makeRows ++
      (number 11 (hostRows "storeProperty" [⟨4⟩, ⟨10⟩, ⟨9⟩] 11 0) ++ [⟨⟨17⟩, .prim .ret, [.value ⟨4⟩], ⟨0⟩⟩])) := rfl
  rw [hrows]
  simp only [askRows, number, Stub.smi, Nat.reduceAdd, List.cons_append, List.nil_append]
  rw [runCode_stubArg (by decide), runCode_pushConst, hwords, runCode_callStub, hcallee₁]
  refine (bind_of_ok hcall₁).trans ?_
  rw [runCode_pushConst, hbytes, runCode_callStub, hcallee₂]
  exact (bind_of_ok hcall₂).trans hfinish

omit shelved calm

/-! ### Agreement with the heap -/

/-- An operation of the heap and a call both succeed, and both make what they should, at some addresses each. -/
def Alike {α : Type} (e : Engine) (made : α → Heap → Prop) (result : α → Word) (act : HeapM Word) (call : RunM Word) :
    Prop :=
  ∃ (a b : α) (h : Heap) (t : Engine), act e.heap = .ok (result a) h ∧ made a h ∧ call e = .ok (result b) t ∧
    Noted e t t.heap ∧ made b t.heap

end Engine
end ScriptEngine
