import ScriptEngine.Proofs.Machine.Compounds
import ScriptEngine.Proofs.Machine.Coercions

/-!
Allocation that is refused. The host then answers `undefined`, notes the error and changes nothing else; and so
do the stubs that allocate words and return them. A stub that goes on to write to what it asked for writes to
`undefined`.
-/

namespace ScriptEngine

open State Builder

namespace Engine

open Machine (argumentAt callFunction enter)

variable {e t : Engine} {T : Contents} {n words depth : Nat} {self : Activation} {s : Stub} {err : HeapError} {heap : Heap}

/-! ### The basic allocation -/

theorem callback_refused {shape : Word} (hn : (n : Int) ≤ Word.smiMax)
    (run : Heap.allocYoung shape n e.heap = .error err heap) (events : Array Event) :
    callback "allocTagged" [shape, .smi n] { e with events } = .error (.heap err) { e with heap, events } := by
  have hsmi : (Word.smi n).toSmi? = some (n : Int) := Word.toSmi?_smi (by unfold Word.smiMin; omega) hn
  unfold callback
  simp only [argument, List.getElem?_cons_zero, List.getElem?_cons_succ, pure_bind, allocSlow, hsmi]
  rw [if_pos (by omega)]
  unfold heapStep onHeap EStateM.run
  simp only [Int.toNat_natCast, run]

/-- A callback that fails in the heap is noted, and the answer is `undefined`. -/
theorem callHost_refused {name : String} {id : Nat} {args : List Word} (hid : callbackId name = .ok id)
    (run : ∀ events, callback name args { e with events } = .error (.heap err) { e with heap, events }) :
    ∃ t, callHost (.smi id :: args) e = .ok heap.undefined t ∧ Noted (e.withError (.heap err)) t heap := by
  have hstep : dispatch (.smi id :: args) e = .error (.heap err)
      { e with heap, events := e.events.push (.callback name args.length) } := by
    rw [dispatch_callback hid]
    exact (modify_bind _ _).trans (run _)
  refine ⟨{ e.withError (.heap err) with heap, events := e.events.push (.callback name args.length) }, ?_, _, _, rfl⟩
  unfold callHost EStateM.run
  rw [hstep]
  rfl

/-- A refusal leaves the heap as it was. -/
theorem allocYoung_refused {shape : Word} (run : Heap.allocYoung shape n e.heap = .error err heap) : heap = e.heap := by
  unfold Heap.allocYoung at run
  rw [get_bind] at run
  cases hfound : e.heap.young.allocate e.heap.addressSpace n with
  | error err' =>
    simp only [hfound] at run
    cases run
    rfl
  | ok found =>
    simp only [hfound] at run
    cases run

theorem Noted.withError (h : Noted e t heap) (err : RunError) : Noted (e.withError err) (t.withError err) heap := by
  obtain ⟨traps, events, rfl⟩ := h
  exact ⟨traps, events, rfl⟩

section

variable (shelved : Shelved T e) (calm : e.Calm)

include shelved calm

theorem Shelved.tagged_refused {kind : RootShape} (hkind : kind ∈ Stub.allocatedShapes)
    (hs : e.stubs.compiled? (allocStub kind) = some s) (positive : 0 < n) (hn : (n : Int) ≤ Word.smiMax)
    (fits : e.heap.young.cursor.top + Layout.align n < 2 ^ 63)
    (run : Heap.allocYoung (e.heap.rootShape kind) n e.heap = .error err heap) (harg : argumentAt self.args 0 = .smi n) :
    ∃ t, callFunction (enter (depth + 2)) s.function self e = .ok e.heap.undefined t ∧
      Noted (e.withError (.heap err)) t e.heap := by
  have hfull : e.heap.young.cursor.limit < e.heap.young.cursor.top + Layout.align n := by
    by_contra hroom
    rw [Heap.allocYoung_bumps shelved.laid positive (by unfold Word.smiMax at hn; omega) (by omega)] at run
    cases run
  obtain ⟨id, hid, hasks⟩ := shelved.tagged_asks depth calm hkind hs hn fits harg hfull
  obtain rfl := allocYoung_refused run
  have hentered := noted_entered e
  have hheap : e.entered.heap = e.heap := hentered.heap_eq
  rw [← hheap] at run
  obtain ⟨t, hanswer, hnoted⟩ := callHost_refused (e := e.entered) hid (callback_refused hn run)
  rw [hheap] at hanswer hnoted
  exact ⟨t, hasks.trans hanswer, (hentered.withError _).trans hnoted⟩

/-! ### Storage -/

variable (depth) in
/-- Storage that is refused: its length goes to `undefined`, and holes go behind it. -/
theorem Shelved.store_refused (hundefined : ∃ c, T e.heap.undefined = some c) (hs : e.stubs.compiled? "allocField" = some s)
    (small : 8 * (words + 2) < 2 ^ 62) (fits : e.heap.young.cursor.top + 8 * (words + 2) < 2 ^ 63)
    (run : Heap.allocYoung (e.heap.rootShape .field) (8 * (words + 2)) e.heap = .error err heap)
    (harg : argumentAt self.args 0 = .smi words) :
    ∃ t, callFunction (enter (depth + 3)) s.function self e = .ok e.heap.undefined t ∧
      Noted (e.withError (.heap err)) t { e.heap with
        memory := (e.heap.memory.store (e.heap.undefined.address + Layout.Store.length) (.smi words)).fill
          (e.heap.undefined.address + Layout.Store.items) words e.heap.hole } := by
  obtain ⟨c, hc⟩ := hundefined
  obtain ⟨values, hstanding, hruns⟩ := shelved.line_runs calm hs (by simp [StubLibrary.standardSources])
    build_store stublike_store
  have hfactor : values ⟨1⟩ 1 = .smi 8 := hstanding.smi rfl (by decide) .refl rfl rfl rfl
  have hheader : values ⟨2⟩ 1 = .smi 16 := hstanding.smi rfl (by decide) .refl rfl rfl rfl
  obtain ⟨_, s', hs', hcallee⟩ := hstanding.row (k := 4) rfl (by decide) .refl (i := 0) rfl rfl
  obtain ⟨_, hhole⟩ := hstanding.row (k := 7) rfl (by decide) .refl (i := 0) rfl rfl
  have hentered := noted_entered e
  have hheap : e.entered.heap = e.heap := hentered.heap_eq
  have shelved' : Shelved T e.entered := hentered.shelved shelved (.refl _) (hheap ▸ shelved.laid) fun h => h
  have halign : Layout.align (8 * (words + 2)) = 8 * (words + 2) := by
    rw [Heap.align_eq (by omega)]
    omega
  obtain ⟨t, hcall, hnoted⟩ : ∃ t, callFunction (enter (depth + 2)) s'.function
      ⟨s'.function, values ⟨4⟩ 2, #[.smi (8 * (words + 2) : Nat)], .ofInt (1 : Nat)⟩ e.entered =
        .ok e.entered.heap.undefined t ∧ Noted (e.entered.withError (.heap err)) t e.entered.heap :=
    shelved'.tagged_refused (hentered.calm calm) (by decide : RootShape.field ∈ Stub.allocatedShapes)
      (by rw [hentered.stubs_eq]; exact hs') (show 0 < 8 * (words + 2) by omega) (by unfold Word.smiMax; omega)
      (by rw [hheap, halign]; exact fits) (by rw [hheap]; exact run) rfl
  rw [← hcallee, hheap] at hcall
  rw [hheap] at hnoted
  have hbelow := shelved.laid.below hc
  have hblock := runCode_storeRows small harg hfactor hheader (show values ⟨7⟩ 0 = e.heap.hole from hhole) hcall
    (Heap.isSmi_of_cell shelved.laid hc) (by omega)
  rw [hnoted.heap_eq] at hblock
  refine ⟨_, hruns hblock, ?_⟩
  obtain ⟨traps, events, rfl⟩ := (hentered.withError (.heap err)).trans hnoted
  exact ⟨traps, events, rfl⟩

end

/-! ### What is left intact -/

/-- After a refusal, the basic stubs leave the heap as it was; the one for storage leaves all words but those that
storage at the address of `undefined` would have. Both answer `undefined`, and the error is noted for the call. -/
structure ContainsRefusal (e : Engine) : Prop where
  tagged : ∀ kind ∈ Stub.allocatedShapes, ∀ s, e.stubs.compiled? (allocStub kind) = some s → ∀ size : Nat, 0 < size →
    (size : Int) ≤ Word.smiMax → e.heap.young.cursor.top + Layout.align size < 2 ^ 63 → ∀ err heap,
      Heap.allocYoung (e.heap.rootShape kind) size e.heap = .error err heap → ∀ depth self,
        argumentAt self.args 0 = .smi size → ∃ t,
          callFunction (enter (depth + 2)) s.function self e = .ok e.heap.undefined t ∧
            Noted (e.withError (.heap err)) t e.heap
  storage : ∀ s, e.stubs.compiled? "allocField" = some s → ∀ words : Nat, 8 * (words + 2) < 2 ^ 62 →
    e.heap.young.cursor.top + 8 * (words + 2) < 2 ^ 63 → ∀ err heap,
      Heap.allocYoung (e.heap.rootShape .field) (8 * (words + 2)) e.heap = .error err heap → ∀ depth self,
        argumentAt self.args 0 = .smi words → ∃ t,
          callFunction (enter (depth + 3)) s.function self e = .ok e.heap.undefined t ∧
            Noted (e.withError (.heap err)) t t.heap ∧ ∀ address, address % 8 = 0 →
              t.heap.memory.load address =
                if address = e.heap.undefined.address + Layout.Store.length then .smi words
                else if e.heap.undefined.address + Layout.Store.items ≤ address ∧
                  address < e.heap.undefined.address + Layout.Store.items + 8 * words then e.heap.hole
                else e.heap.memory.load address

theorem refusal_contained (stocked : Stocked T e) (calm : e.Calm) : ContainsRefusal e := by
  have shelved := stocked.toShelved
  constructor
  case tagged =>
    intro kind hkind s hs size positive hn fits err heap run depth self harg
    exact shelved.tagged_refused calm hkind hs positive hn fits run harg
  case storage =>
    intro s hs words small fits err heap run depth self harg
    obtain ⟨past, sound⟩ := stocked.sound
    obtain ⟨rest, hundefined⟩ := sound.typed.oddballs.undefined
    have haligned := shelved.laid.aligned hundefined
    obtain ⟨t, hcall, hnoted⟩ := shelved.store_refused depth calm ⟨_, hundefined⟩ hs small fits run harg
    refine ⟨t, hcall, hnoted.heap_eq ▸ hnoted, fun address haddress => ?_⟩
    rw [hnoted.heap_eq]
    have hlength : (e.heap.undefined.address + Layout.Store.length) % 8 = 0 := by unfold Layout.Store.length; omega
    have hitems : (e.heap.undefined.address + Layout.Store.items) % 8 = 0 := by unfold Layout.Store.items; omega
    rw [Memory.load_fill _ _ _ hitems haddress, Memory.load_store _ _ hlength haddress]
    unfold Layout.Store.length Layout.Store.items
    split <;> split <;> first | rfl | omega | (split <;> first | rfl | omega)

/-- A new engine, which is refused storage that no page can hold. -/
theorem refusal_contained_large : ∃ (e : Engine) (s : Stub) (err : HeapError) (heap : Heap),
    supplied {} ["allocField"] = some e ∧ e.stubs.compiled? "allocField" = some s ∧
      Heap.allocYoung (e.heap.rootShape .field) (2 ^ 62 - 8) e.heap = .error err heap ∧ ContainsRefusal e := by
  obtain ⟨e, he, hall⟩ := (Option.any_eq_true _ _).mp (show (supplied {} ["allocField"]).any
    (fun e => isModest e && (!e.config.trapOnEntry &&
      ((Heap.allocYoung (e.heap.rootShape .field) (2 ^ 62 - 8)).run' e.heap).isNone)) = true by decide +kernel)
  rw [Bool.and_eq_true, Bool.and_eq_true, Bool.not_eq_true', Option.isNone_iff_eq_none] at hall
  obtain ⟨hmodest, htraps, hrefused⟩ := hall
  obtain ⟨T, stocked, hcompiled⟩ := stocked_supplied (by decide) he hmodest
  obtain ⟨s, hs⟩ := hcompiled "allocField" (by decide)
  unfold EStateM.run' EStateM.run at hrefused
  cases hrun : Heap.allocYoung (e.heap.rootShape .field) (2 ^ 62 - 8) e.heap with
  | error err heap => exact ⟨e, s, err, heap, he, hs, hrun, refusal_contained stocked (calm_of_not_trapping htraps)⟩
  | ok w heap =>
    rw [hrun] at hrefused
    cases hrefused

/-- An engine whose page is used up, and that gets no other one. -/
def starved (e : Engine) : Engine :=
  { e with heap.young.cursor.top := e.heap.young.cursor.limit, heap.addressSpace.refuses := fun _ => true }

/-- An empty object is refused to a starved engine: `undefined` takes the part of the object and of its storage,
and the holes of the latter are written over `null`. -/
theorem refusal_spreads : ∃ (e t : Engine) (s : Stub), (supplied {} ["allocObject"]).map starved = some e ∧
    e.stubs.compiled? "allocObject" = some s ∧
    callFunction (enter 4) s.function ⟨s.function, e.heap.undefined, #[], .smi 0⟩ e = .ok e.heap.undefined t ∧
    t.pending.isSome = true ∧ e.heap.read e.heap.undefined Layout.Object.store = .smi 0 ∧
    t.heap.read t.heap.undefined Layout.Object.store = t.heap.undefined ∧
    e.heap.read e.heap.null Layout.shape = e.heap.rootShape .oddball ∧ t.heap.read t.heap.null Layout.shape = t.heap.hole := by
  obtain ⟨e, he, hall⟩ := (Option.any_eq_true _ _).mp (show ((supplied {} ["allocObject"]).map starved).any
    (fun e => (e.stubs.compiled? "allocObject").any fun s =>
      let act := callFunction (enter 4) s.function ⟨s.function, e.heap.undefined, #[], .smi 0⟩
      let t := finalState act e
      act.run' e == some e.heap.undefined && (t.pending.isSome &&
        (e.heap.read e.heap.undefined Layout.Object.store == .smi 0 &&
          (t.heap.read t.heap.undefined Layout.Object.store == t.heap.undefined &&
            (e.heap.read e.heap.null Layout.shape == e.heap.rootShape .oddball &&
              t.heap.read t.heap.null Layout.shape == t.heap.hole))))) = true by decide +kernel)
  obtain ⟨s, hs, hall⟩ := (Option.any_eq_true _ _).mp hall
  simp only [Bool.and_eq_true, beq_iff_eq] at hall
  obtain ⟨hrun, hrest⟩ := hall
  unfold EStateM.run' EStateM.run at hrun
  cases hcall : callFunction (enter 4) s.function ⟨s.function, e.heap.undefined, #[], .smi 0⟩ e with
  | error err t =>
    rw [hcall] at hrun
    cases hrun
  | ok w t =>
    rw [hcall] at hrun
    cases hrun
    rw [finalState_ok hcall] at hrest
    exact ⟨e, t, s, he, hs, hcall, hrest⟩

end Engine
end ScriptEngine
