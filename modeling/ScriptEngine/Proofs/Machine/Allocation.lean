import Mathlib
import ScriptEngine.Proofs.Heap.Granting
import ScriptEngine.Proofs.Machine.Access
import ScriptEngine.Proofs.Machine.Calling

/-!
Stubs that allocate. The basic one takes words from the page of the young space that is in use, or lets the
heap take them, and the outcome is that of the heap's own operation; the others put objects together from it.
-/

namespace ScriptEngine

open State Builder

/-! ### Code of the stubs -/

/-- Whether the page in use has room. -/
def roomRows (kind : RootShape) : List Row :=
  [(.stubArg, [raw 0], 0), (.literal, [.const (.shape kind)], 0), (.untag, [.value ⟨0⟩], 0),
    (.alignSize, [.value ⟨2⟩], 0), (.heapTop, [], 0), (.addBare, [.value ⟨4⟩, .value ⟨3⟩], 0), (.heapLimit, [], 0),
    (.comparePointer, [.value ⟨5⟩, .value ⟨6⟩, .const (.cond .gt)], 0)]

/-- Words of the page in use become an object. -/
def bumpRows : List Row :=
  [(.setHeapTop, [.value ⟨5⟩], 2), (.pointer, [.value ⟨4⟩], 2),
    (.write, [.value ⟨9⟩, raw Layout.shape, .value ⟨1⟩], 2), (.ret, [.value ⟨9⟩], 2)]

def taggedRows (kind : RootShape) : List Row :=
  roomRows kind ++ bumpRows ++ (hostRows "allocTagged" [⟨1⟩, ⟨0⟩] 12 1).concat (.ret, [.value ⟨16⟩], 1)

def taggedGraph (kind : RootShape) : Graph := .ofRows (allocStub kind) (taggedRows kind) [[⟨1⟩, ⟨2⟩], [], []]

theorem build_tagged {kind : RootShape} (hkind : kind ∈ Stub.allocatedShapes) :
    build (allocStub kind) (Stub.allocBody kind) = .ok (taggedGraph kind) := by
  simp only [Stub.allocatedShapes, List.mem_cons, List.not_mem_nil, or_false] at hkind
  rcases hkind with rfl | rfl | rfl | rfl
  all_goals cbv

/-- Storage is asked for, of the size for a number of words. -/
def sizeRows : List Row :=
  [(.stubArg, [raw 0], 0), (.mul, [.value ⟨0⟩, Stub.smi 8], 0), (.add, [.value ⟨1⟩, Stub.smi Layout.Store.items], 0),
    (.push, [.value ⟨2⟩], 0), (.callStub, [.const (.stub (allocStub .field)), raw 1], 0)]

/-- Words become storage full of holes. -/
def layRows : List Row :=
  [(.write, [.value ⟨4⟩, raw Layout.Store.length, .value ⟨0⟩], 0), (.untag, [.value ⟨0⟩], 0), (.literal, [.const .hole], 0),
    (.fill, [.value ⟨4⟩, raw Layout.Store.items, .value ⟨6⟩, .value ⟨7⟩], 0), (.ret, [.value ⟨4⟩], 0)]

def storeRows : List Row := sizeRows ++ layRows

def storeGraph : Graph := .ofRows "allocField" storeRows [[]]

theorem build_store : build "allocField" Stub.storeBody = .ok storeGraph := by cbv

/-- An object gets the storage that a register holds. -/
def joinRows (kind : RootShape) (store : Nat) : List Row :=
  [(.push, [Stub.smi Layout.Object.size], 0), (.callStub, [.const (.stub (allocStub kind)), raw 1], 0),
    (.write, [.value ⟨store + 2⟩, raw Layout.Object.store, .value ⟨store⟩], 0), (.ret, [.value ⟨store + 2⟩], 0)]

def objectRows : List Row :=
  [(.push, [Stub.smi 8], 0), (.callStub, [.const (.stub "allocField"), raw 1], 0)] ++ joinRows .object 1

def objectGraph : Graph := .ofRows "allocObject" objectRows [[]]

theorem build_object : build "allocObject" Stub.objectBody = .ok objectGraph := by cbv

def arrayRows : List Row :=
  [(.stubArg, [raw 0], 0), (.push, [.value ⟨0⟩], 0), (.callStub, [.const (.stub "allocField"), raw 1], 0)] ++
    joinRows .array 2

def arrayGraph : Graph := .ofRows "allocArray" arrayRows [[]]

theorem build_array : build "allocArray" Stub.arrayBody = .ok arrayGraph := by cbv

/-- Words for a function are asked for, and storage before them. -/
def askRows : List Row :=
  [(.stubArg, [raw 0], 0), (.push, [Stub.smi 8], 0), (.callStub, [.const (.stub "allocField"), raw 1], 0),
    (.push, [Stub.smi Layout.Function.size], 0), (.callStub, [.const (.stub (allocStub .function)), raw 1], 0)]

/-- The words become a function, and there is an object for its prototype. -/
def makeRows : List Row :=
  [(.write, [.value ⟨4⟩, raw Layout.Function.store, .value ⟨2⟩], 0),
    (.write, [.value ⟨4⟩, raw Layout.Function.code, .value ⟨0⟩], 0),
    (.literal, [.const (.shape .object)], 0),
    (.write, [.value ⟨4⟩, raw Layout.Function.instanceShape, .value ⟨7⟩], 0),
    (.callStub, [.const (.stub "allocObject"), raw 0], 0), (.literal, [.const (.text "prototype")], 0)]

def functionRows : List Row :=
  askRows ++ (makeRows ++ (hostRows "storeProperty" [⟨4⟩, ⟨10⟩, ⟨9⟩] 11 0 ++ [(.ret, [.value ⟨4⟩], 0)]))

def functionGraph : Graph := .ofRows "allocFn" functionRows [[]]

theorem build_function : build "allocFn" Stub.functionBody = .ok functionGraph := by cbv

theorem stublike_tagged {kind : RootShape} (hkind : kind ∈ Stub.allocatedShapes) : Engine.Stublike (taggedGraph kind) := by
  simp only [Stub.allocatedShapes, List.mem_cons, List.not_mem_nil, or_false] at hkind
  rcases hkind with rfl | rfl | rfl | rfl
  all_goals exact Engine.StubRows.stublike (by decide +kernel)

theorem stublike_store : Engine.Stublike storeGraph := Engine.StubRows.stublike (by decide +kernel)
theorem stublike_object : Engine.Stublike objectGraph := Engine.StubRows.stublike (by decide +kernel)
theorem stublike_array : Engine.Stublike arrayGraph := Engine.StubRows.stublike (by decide +kernel)
theorem stublike_function : Engine.Stublike functionGraph := Engine.StubRows.stublike (by decide +kernel)

/-! ### Runs -/

namespace Engine

open Machine (argumentAt callFunction enter maxJumps)
open Meaning (Progress)

variable {e t : Engine} {T : Contents} {w : Word} {heap : Heap} {n depth : Nat} {self : Activation}

/-- An engine whose heap has changed; traps and events may have been noted. -/
def Noted (e t : Engine) (heap : Heap) : Prop := ∃ traps events, t = { e with heap, traps, events }

theorem noted_entered (e : Engine) : Noted e e.entered e.heap := by
  unfold entered
  split
  · exact ⟨_, _, rfl⟩
  · exact ⟨_, _, rfl⟩

theorem Noted.heap_eq (h : Noted e t heap) : t.heap = heap := by
  obtain ⟨_, _, rfl⟩ := h
  rfl

theorem Noted.stubs_eq (h : Noted e t heap) : t.stubs = e.stubs := by
  obtain ⟨_, _, rfl⟩ := h
  rfl

theorem Noted.trans {u : Engine} {heap' : Heap} (h : Noted e t heap) (h' : Noted t u heap') : Noted e u heap' := by
  obtain ⟨_, _, rfl⟩ := h
  obtain ⟨traps, events, rfl⟩ := h'
  exact ⟨traps, events, rfl⟩

theorem Noted.goesOn (h : Noted e t heap) (retains : e.heap.Retains heap) : GoesOn e t := by
  obtain ⟨_, _, rfl⟩ := h
  exact ⟨rfl, rfl, rfl, fun _ _ hs => hs, retains, fun _ _ hr => hr⟩

theorem Noted.shelved {T' : Contents} (h : Noted e t heap) (shelved : Shelved T e) (retains : e.heap.Retains heap)
    (laid : Laid heap T') (sub : ∀ {w c}, T w = some c → T' w = some c) : Shelved T' t := by
  have hon := h.goesOn retains
  obtain ⟨_, _, rfl⟩ := h
  refine shelved.mono hon ⟨sub, fun hw => ?_, fun ho => ⟨_, _, _, sub ho, rfl⟩⟩ laid fun _ _ hs => hs
  rcases hw with hsmi | ⟨kind, rest, hleaf⟩ | ⟨text, htext⟩ | ⟨s, st, rest, ho⟩
  · exact .inl hsmi
  · exact .inr (.inl ⟨kind, rest, sub hleaf⟩)
  · exact .inr (.inr (.inl ⟨text, sub htext⟩))
  · exact .inr (.inr (.inr ⟨s, st, rest, sub ho⟩))

theorem Noted.calm (h : Noted e t heap) (calm : e.Calm) : t.Calm := by
  obtain ⟨_, _, rfl⟩ := h
  exact calm

/-- The host does to the heap what a callback does. -/
theorem callHost_heap {name : String} {id : Nat} {args : List Word} (hid : callbackId name = .ok id)
    (run : ∀ events, callback name args { e with events } = .ok w { e with heap, events }) :
    ∃ t, callHost (.smi id :: args) e = .ok w t ∧ Noted e t heap := by
  have hstep : dispatch (.smi id :: args) e = .ok w
      { e with heap, events := e.events.push (.callback name args.length) } := by
    rw [dispatch_callback hid]
    exact (modify_bind _ _).trans (run _)
  exact ⟨_, by unfold callHost EStateM.run; rw [hstep], _, _, rfl⟩

theorem callback_allocTagged {shape : Word} (hn : (n : Int) ≤ Word.smiMax)
    (run : Heap.allocYoung shape n e.heap = .ok w heap) (events : Array Event) :
    callback "allocTagged" [shape, .smi n] { e with events } = .ok w { e with heap, events } := by
  have hsmi : (Word.smi n).toSmi? = some (n : Int) := Word.toSmi?_smi (by unfold Word.smiMin; omega) hn
  unfold callback
  simp only [argument, List.getElem?_cons_zero, List.getElem?_cons_succ, pure_bind, allocSlow, hsmi]
  rw [if_pos (by omega)]
  exact onHeap_of_ok run

theorem callback_storeProperty {object key v : Word} (run : Heap.setProperty object key v e.heap = .ok () heap)
    (events : Array Event) :
    callback "storeProperty" [object, key, v] { e with events } = .ok v { e with heap, events } := by
  unfold callback
  simp only [argument, List.getElem?_cons_zero, List.getElem?_cons_succ, pure_bind]
  have hset : heapStep (Heap.setProperty object key v) { e with events } = .ok () { e with heap, events } := onHeap_of_ok run
  rw [bind_of_ok hset]
  rfl

/-- The untagged word of a small integer that is not negative. -/
theorem toNat_untag_smi (hn : (n : Int) ≤ Word.smiMax) : (Word.smi n).untag = .ofNat n := by
  apply Word.signed_inj
  rw [Word.untag_smi (by unfold Word.smiMin; omega) hn, Word.signed_ofNat (by unfold Word.smiMax at hn; omega)]

/-! ### The basic allocation -/

/-- The test whether the page in use has room leaves the registers that the allocation needs. -/
theorem runCode_roomRows {words : InstrId → Nat → Word} (call : Caller) {kind : RootShape} (hn : (n : Int) ≤ Word.smiMax)
    (harg : argumentAt self.args 0 = .smi n) (hroot : words ⟨1⟩ 0 = e.heap.rootShape kind)
    (fits : e.heap.young.cursor.top + Layout.align n < 2 ^ 63) (hlimit : e.heap.young.cursor.limit < 2 ^ 63)
    (s : Progress Word) : ∃ s' : Progress Word,
      (machineWorld words call self).runCode (number 0 (roomRows kind)) s e = .ok (.fell s') e ∧
      s'.condition = some (decide (e.heap.young.cursor.limit < e.heap.young.cursor.top + Layout.align n)) ∧
      s'.regs ⟨0⟩ = .smi n ∧ s'.regs ⟨1⟩ = e.heap.rootShape kind ∧ s'.regs ⟨4⟩ = .ofNat e.heap.young.cursor.top ∧
      s'.regs ⟨5⟩ = .ofNat (e.heap.young.cursor.top + Layout.align n) := by
  have hsize : n < 2 ^ 64 := by unfold Word.smiMax at hn; omega
  simp only [roomRows, number]
  refine ⟨_, by rw [runCode_stubArg (by decide), runCode_literal, runCode_untag, runCode_alignSize, runCode_heapTop,
    runCode_addBare, runCode_heapLimit, runCode_comparePointer, runCode_nil]; rfl, ?_⟩
  simp [harg, hroot, toNat_untag_smi hn, Word.toNat_ofNat hsize, Word.add_ofNat, Cond.holds, Word.signed_ofNat fits,
    Word.signed_ofNat hlimit]
  omega

/-- Words of the page in use become an object. -/
theorem runCode_bumpRows (words : InstrId → Nat → Word) (call : Caller) (self : Activation) {s : Progress Word} {top stop : Nat} {shape : Word}
    (aligned : top % 8 = 0) (fits : stop < 2 ^ 63) (hle : top ≤ stop) (htop : s.regs ⟨4⟩ = .ofNat top)
    (hstop : s.regs ⟨5⟩ = .ofNat stop) (hshape : s.regs ⟨1⟩ = shape) :
    (machineWorld words call self).runCode (number 8 bumpRows) s e = .ok (.returned (.pointer top))
      ({ e with heap.young.cursor.top := stop }.withMemory
        (e.heap.memory.store ((Word.pointer top).address + Layout.shape) shape)) := by
  have hword : (Word.pointer top).address = top := Word.address_pointer (by omega) (by omega)
  have hnew : (s.setReg ⟨9⟩ ((s.regs ⟨4⟩).or ⟨1⟩)).regs ⟨9⟩ = .pointer top := by
    rw [Progress.regs_setReg, if_pos rfl, htop]
    rfl
  simp only [bumpRows, number]
  rw [runCode_setHeapTop, runCode_pointer, runCode_write (by decide) (by rw [hnew]; exact Word.isSmi_pointer _)
    (by rw [hnew, hword]; unfold Layout.shape; omega), runCode_ret, hnew, hstop, Word.toNat_ofNat (by omega)]
  simp only [Progress.regs_setReg, InstrId.mk.injEq, Nat.reduceEqDiff, if_false, hshape]
  rfl

section

variable (shelved : Shelved T e) (calm : e.Calm) {kind : RootShape} (hkind : kind ∈ Stub.allocatedShapes) {s : Stub}
  (hs : e.stubs.compiled? (allocStub kind) = some s) (hn : (n : Int) ≤ Word.smiMax)
  (fits : e.heap.young.cursor.top + Layout.align n < 2 ^ 63) (harg : argumentAt self.args 0 = .smi n)

include shelved calm hkind hs hn fits harg

variable (depth) in
/-- A stub that allocates goes where the room in the page in use leads it. -/
theorem Shelved.tagged_turns : ∃ (words : InstrId → Nat → Word) (jumps : Nat) (s₁ : Progress Word),
    Standing (taggedGraph kind) e words ∧ s₁.regs ⟨0⟩ = .smi n ∧ s₁.regs ⟨1⟩ = e.heap.rootShape kind ∧
      s₁.regs ⟨4⟩ = .ofNat e.heap.young.cursor.top ∧
      s₁.regs ⟨5⟩ = .ofNat (e.heap.young.cursor.top + Layout.align n) ∧
      callFunction (enter (depth + 2)) s.function self e =
        (machineWorld words (enter (depth + 1)) self).runAt (taggedGraph kind) (jumps + 1)
          (if e.heap.young.cursor.limit < e.heap.young.cursor.top + Layout.align n then ⟨1⟩ else ⟨2⟩) s₁ e.entered := by
  obtain ⟨words, hstanding, hruns⟩ := shelved.stub_runs calm hs (by
    unfold StubLibrary.standardSources
    simp only [List.mem_append, List.mem_map]
    exact .inl (.inl (.inl (.inr ⟨kind, hkind, rfl⟩)))) (build_tagged hkind) (stublike_tagged hkind)
  obtain ⟨jumps, hjumps⟩ : ∃ jumps, maxJumps = jumps + 2 := exists_maxJumps (by decide)
  rw [hjumps] at hruns
  have hparameters : ∀ b, (taggedGraph kind).parameters b = [] := Graph.parameters_ofRows (by
    simp [taggedRows, roomRows, bumpRows, hostRows, pushRows])
  have hentry : (taggedGraph kind).code ⟨0⟩ = number 0 (roomRows kind) := Graph.code_ofRows (by decide)
  obtain ⟨_, hroot⟩ := hstanding.row (k := 1) rfl (by decide) .refl (i := 0) rfl rfl
  have hheap : e.entered.heap = e.heap := (noted_entered e).heap_eq
  have hlimit := shelved.laid.spaces.first.limit_lt
  change words ⟨1⟩ 0 = e.heap.rootShape kind at hroot
  rw [← hheap] at hroot fits hlimit
  obtain ⟨s₁, hrun, hcondition, hsize, hshape, htop, hstop⟩ :=
    runCode_roomRows (enter (depth + 1)) hn harg hroot fits hlimit { regs := fun _ => default }
  rw [hheap] at hcondition hshape htop hstop
  rw [← hentry] at hrun
  refine ⟨words, jumps, s₁.next, hstanding, hsize, hshape, htop, hstop, ?_⟩
  rw [hruns, Meaning.World.run]
  refine (runAt_turns hrun (Graph.successors_ofRows (by decide)) hcondition (hparameters _) (hparameters _)).trans ?_
  simp only [decide_eq_true_eq]

variable (depth) in
/-- Where the page in use is full, the host is asked. -/
theorem Shelved.tagged_asks (full : e.heap.young.cursor.limit < e.heap.young.cursor.top + Layout.align n) :
    ∃ id, callbackId "allocTagged" = .ok id ∧ callFunction (enter (depth + 2)) s.function self e =
      callHost [.smi id, e.heap.rootShape kind, .smi n] e.entered := by
  obtain ⟨words, jumps, s₁, hstanding, hsize, hshape, -, -, hturn⟩ :=
    shelved.tagged_turns depth calm hkind hs hn fits harg
  have hslow : (taggedGraph kind).code ⟨1⟩ =
      number 12 (hostRows "allocTagged" [⟨1⟩, ⟨0⟩] 12 1) ++ [⟨⟨17⟩, .prim .ret, [.value ⟨16⟩], ⟨1⟩⟩] :=
    Graph.code_ofRows (by decide)
  obtain ⟨host, id, hhost, hid, hfunction, hcallback, -⟩ :=
    hstanding.host (.single (Graph.edge_ofRows (by decide) (by decide))) hslow
  have hentered := noted_entered e
  have hshelved : Shelved T e.entered :=
    hentered.shelved shelved (.refl _) (hentered.heap_eq ▸ shelved.laid) fun h => h
  have hleads : LeadsToHost e.entered host.function := hshelved.leadsToHost (by rw [hentered.stubs_eq]; exact hhost)
  have hasks : (machineWorld words (enter (depth + 1)) self).runAt (taggedGraph kind) (jumps + 1) ⟨1⟩ s₁ =
      askHost (enter (depth + 1)) host.function (.smi id) (words ⟨16⟩ 2) [e.heap.rootShape kind, .smi n] :=
    runAt_returned (by
      rw [hslow, runCode_hostRows, show words ⟨12 + [(⟨1⟩ : InstrId), ⟨0⟩].length + 2⟩ 0 = host.function from hfunction,
        show words ⟨12 + [(⟨1⟩ : InstrId), ⟨0⟩].length⟩ 0 = .smi id from hcallback]
      simp only [List.map_cons, List.map_nil, hsize, hshape, runCode_ret]
      simp)
  refine ⟨id, hid, ?_⟩
  rw [hturn, if_pos full, hasks]
  exact askHost_eq hleads (by simp) depth

/-- A stub that allocates an object of a root shape does what the heap does. -/
theorem Shelved.tagged_runs (positive : 0 < n) (run : Heap.allocYoung (e.heap.rootShape kind) n e.heap = .ok w heap) :
    ∃ t, callFunction (enter (depth + 2)) s.function self e = .ok w t ∧ Noted e t heap := by
  have hheap : e.entered.heap = e.heap := (noted_entered e).heap_eq
  by_cases hroom : e.heap.young.cursor.top + Layout.align n ≤ e.heap.young.cursor.limit
  · -- The page in use has room: the stub writes what the heap would write.
    obtain ⟨words, jumps, s₁, -, -, hshape, htop, hstop, hturn⟩ :=
      shelved.tagged_turns depth calm hkind hs hn fits harg
    obtain ⟨traps, events, hentered⟩ := noted_entered e
    have hfast : (taggedGraph kind).code ⟨2⟩ = number 8 bumpRows := Graph.code_ofRows (by decide)
    rw [if_neg (by omega)] at hturn
    rw [Heap.allocYoung_bumps shelved.laid positive (by unfold Word.smiMax at hn; omega) hroom] at run
    cases run
    have hblock := runCode_bumpRows words (enter (depth + 1)) self (e := e.entered) (s := s₁)
      shelved.laid.spaces.first.top_aligned fits (by omega) htop hstop hshape
    rw [← hfast] at hblock
    refine ⟨_, hturn.trans (runAt_ends hblock), ?_⟩
    rw [hentered]
    exact ⟨traps, events, rfl⟩
  · -- The page is full: the stub leaves it to the host.
    obtain ⟨id, hid, hasks⟩ := shelved.tagged_asks depth calm hkind hs hn fits harg (by omega)
    rw [← hheap] at run
    obtain ⟨t, hanswer, hnoted⟩ := callHost_heap hid (callback_allocTagged hn run)
    refine ⟨t, hasks.trans ?_, (noted_entered e).trans hnoted⟩
    rw [← hheap]
    exact hanswer

end

end Engine
end ScriptEngine
